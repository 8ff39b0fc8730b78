import PxcCore.Utils.Buffer.Frame
import PxcCore.Utils.Buffer.Pieces
import PxcCore.Utils.ByteFlow

/-!
# `AesCtrByteFlow`

A stage that encrypts in place between a source and a sink: `AesCtrByteFlow.h`, and what of
`ByteFlow.h` it is connected with.
-/

namespace PxcCore.AesCtrByteFlow

open Lib Buffer

/-! ## Definitions -/

/-- `AesCtrState`: a keystream and a position in it. -/
structure AesCtrState where
  keystream : ℕ → UInt8
  position : ℕ := 0

/-- The bytes that `encrypt` gives. -/
def AesCtrState.xor (s : AesCtrState) (from_ : List UInt8) : List UInt8 :=
  (from_.zipIdx s.position).map fun (b, i) ↦ b ^^^ s.keystream i

/-- The state after this many bytes. -/
def AesCtrState.advance (s : AesCtrState) (n : ℕ) : AesCtrState :=
  { s with position := s.position + n }

/-- `Status` -/
inductive Status where
  | ok
  | error (message : String)
deriving DecidableEq, Repr

/-- The chain `source >> stage >> sink`: the memory, the writer that the source's buffer was
extracted from, the reader `input_` of the stage, which is the buffer of the source, and the reader
`output_`, which is the buffer of the sink. -/
structure Flow where
  memory : Buffer.Memory
  writer : ChainBufferWriter
  sourceHasParent : Bool := true
  input : ChainBufferReader
  base : ByteFlow.Base := { hasInput := true, hasParent := true }
  state : AesCtrState
  output : ChainBufferReader
  sinkActive : Bool := true
  sinkStatus : Status := .ok

namespace Flow

/-- A new writer, its reader as the buffer of the source, and the stages connected by `>>`. -/
def new (state : AesCtrState) : Except Fault Flow := do
  let (writer, memory) := ChainBufferWriter.new {}
  let (input, writer) ← writer.extractReader memory
  let output := { begin_ := input.begin_, end_ := input.begin_, syncFlag := false }
  return { memory, writer, input, state, output }

/-! ### The sink -/

/-- `ByteFlowSink::wakeup` -/
def sinkWakeup (f : Flow) : Except Fault Flow := do
  let output ← f.output.syncWithWriter f.memory
  return { f with output }

/-- `ByteFlowSink::close_input` -/
def sinkCloseInput (status : Status) (f : Flow) : Except Fault Flow := do
  check f.sinkActive
  let output ← f.output.syncWithWriter f.memory
  return { f with sinkActive := false, sinkStatus := status, output }

/-- `ByteFlowSink::get_read_size` -/
def sinkReadSize (f : Flow) : Except Fault (ℕ × Flow) := do
  let f ← f.sinkWakeup
  return (f.output.size, f)

/-! ### The stage -/

/-- `finish` -/
def finish (status : Status) (f : Flow) : Except Fault Flow :=
  let g := { f with base := f.base.finish }
  if f.base.hasParent then g.sinkCloseInput status else return g

/-- `get_read_size` -/
def getReadSize (f : Flow) : Except Fault (ℕ × Flow) := do
  let input ← f.input.syncWithWriter f.memory
  return (input.size, { f with input })

/-- `get_write_size` -/
def getWriteSize (f : Flow) : Except Fault (ℕ × Flow) := do
  check f.base.hasParent
  f.sinkReadSize

/-- What `loop` does with the bytes that are ready: `encrypt` in place, `confirm_read` and
`advance_end`. -/
def encryptReady (f : Flow) : Except Fault (Bool × Flow) := do
  let (ready, input) ← f.input.prepareRead f.memory
  if ready = [] then return (false, { f with input })
  let memory := input.begin_.reader.copyFrom f.memory (f.state.xor ready)
  let input ← input.confirmRead ready.length
  let (_, _, end_) ← f.output.end_.advance memory ready.length 0
  return (true, { f with
    memory, input, state := f.state.advance ready.length, output := { f.output with end_ } })

/-- `AesCtrByteFlow::loop` -/
def loop (f : Flow) : Except Fault (Bool × Flow) := do
  let (result, f) ← f.encryptReady
  if !f.base.isInputActive then return (result, ← f.finish .ok)
  return (result, f)

/-- The update of `can_read`. -/
def updateCanRead (f : Flow) : Except Fault Flow := do
  let (readSize, f) ← if f.base.isInputActive then f.getReadSize else pure (0, f)
  return { f with base := { f.base with canRead := f.base.nextCanRead readSize } }

/-- The update of `can_write`. -/
def updateCanWrite (f : Flow) : Except Fault Flow := do
  let (writeSize, f) ← f.getWriteSize
  return { f with base := { f.base with canWrite := f.base.nextCanWrite writeSize } }

/-- What `wakeup` does when `loop` has made no progress. -/
def noProgress (f : Flow) : Except Fault Flow := do
  let (readSize, f) ← f.getReadSize
  if f.base.needSize ≤ readSize then
    return { f with base := { f.base with needSize := readSize + 1 } }
  return f

/-- `reset_need_size` -/
def resetNeedSize (f : Flow) : Flow := { f with base := { f.base with needSize := 0 } }

/-- A call of `loop` in `wakeup`. -/
def callLoop (f : Flow) : Except Fault Flow := do
  let (progress, f) ← f.resetNeedSize.loop
  if progress then return f else f.noProgress

/-- The loop of `wakeup`. -/
def whileLoop : ℕ → Flow → Except Fault Flow
  | 0, _ => .error .fuel
  | rounds + 1, f => do
    if f.base.stopFlag then return f
    let f ← f.updateCanRead
    let f ← f.updateCanWrite
    if !f.base.canRead || !f.base.canWrite then return f
    let f ← f.callLoop
    whileLoop rounds f

/-- `wakeup` -/
def wakeup (f : Flow) : Except Fault Flow := do
  if f.base.stopFlag || !f.base.hasInput then return f
  let (_, f) ← f.getReadSize
  if f.base.waitingFlag then
    if !f.base.isInputActive then f.finish .ok else return f
  else
    let f ← whileLoop (f.memory.chainBytes + 2) f
    if f.base.hasParent then f.sinkWakeup else return f

/-- `close_input` -/
def closeInput (status : Status) (f : Flow) : Except Fault Flow :=
  match status with
  | .error _ => f.finish status
  | .ok => { f with base := { f.base with isInputActive := false } : Flow }.wakeup

/-! ### The source -/

/-- `ByteFlowSource::wakeup` -/
def sourceWakeup (f : Flow) : Except Fault Flow := if f.sourceHasParent then f.wakeup else return f

/-- `ByteFlowSource::close_input` -/
def sourceCloseInput (status : Status) (f : Flow) : Except Fault Flow := do
  check f.sourceHasParent
  let f ← f.closeInput status
  return { f with sourceHasParent := false }

end Flow

/-! ## Runs -/

/-- What the owner of the source does: a chunk is appended from a `Slice` or from a `BufferSlice` of
its own, or the source is woken up. -/
inductive Op where
  | append (chunk : List UInt8) (hint : ℕ)
  | appendBufferSlice (chunk : List UInt8)
  | wakeup
deriving DecidableEq, Repr

namespace Flow

def step (f : Flow) : Op → Except Fault Flow
  | .append chunk hint => do
    let (writer, memory) ← f.writer.append f.memory chunk hint
    return { f with writer, memory }
  | .appendBufferSlice chunk => do
    let (slice, memory) := BufferSlice.ofSlice f.memory chunk
    let (writer, memory) ← f.writer.appendBufferSlice memory slice
    return { f with writer, memory }
  | .wakeup => f.sourceWakeup

/-- A run from the beginning. -/
def run (state : AesCtrState) (ops : List Op) : Except Fault Flow := do
  ops.foldlM step (← new state)

/-- The bytes in the buffer of the sink. -/
def visible (f : Flow) : List UInt8 := f.output.contents f.memory

/-- `is_ready` of the sink, with an OK status -/
def ReadyOk (f : Flow) : Prop := f.sinkActive = false ∧ f.sinkStatus = .ok

/-- What has not been encrypted yet lies in one node of the chain. -/
def InOnePiece (f : Flow) : Prop := (f.input.begin_.pieces f.memory).length ≤ 1

end Flow

/-- The bytes that a run appends. -/
def inputOf (ops : List Op) : List UInt8 :=
  ops.flatMap fun
    | .append chunk _ => chunk
    | .appendBufferSlice chunk => chunk
    | .wakeup => []

/-! ## The keystream -/

namespace AesCtrState

variable (s : AesCtrState)

@[simp] theorem length_xor (bytes : List UInt8) : (s.xor bytes).length = bytes.length := by
  rw [xor, List.length_map, List.length_zipIdx]

theorem xor_append (a b : List UInt8) : s.xor (a ++ b) = s.xor a ++ (s.advance a.length).xor b := by
  rw [xor, List.zipIdx_append, List.map_append]
  rfl

theorem advance_advance (j k : ℕ) : (s.advance j).advance k = s.advance (j + k) := by
  rw [advance, advance, advance, Nat.add_assoc]

theorem xor_take_prefix (bytes : List UInt8) (p : ℕ) : s.xor (bytes.take p) <+: s.xor bytes := by
  conv_rhs => rw [← List.take_append_drop p bytes, xor_append]
  exact List.prefix_append _ _

/-- The encryption goes on where it stopped. -/
theorem patch_xor {bytes piece rest : List UInt8} {p : ℕ} (hp : p ≤ bytes.length)
    (hpiece : bytes.drop p = piece ++ rest) :
    patch (s.xor (bytes.take p) ++ bytes.drop p) p ((s.advance p).xor piece) =
      s.xor (bytes.take (p + piece.length)) ++ bytes.drop (p + piece.length) := by
  have hlength : (bytes.take p).length = p := List.length_take_of_le hp
  have hpatch := patch_append_right (s.xor (bytes.take p)) (bytes.drop p) 0
    ((s.advance p).xor piece)
  rw [length_xor, hlength, Nat.add_zero] at hpatch
  have hxor := s.xor_append (bytes.take p) piece
  rw [hlength] at hxor
  rw [hpatch, List.take_add, ← List.drop_drop, hpiece, List.take_left, List.drop_left, hxor, patch,
    List.take_zero, List.nil_append, Nat.zero_add, length_xor, List.drop_left, List.append_assoc]

end AesCtrState

/-! ## The buffers -/

namespace Flow

variable {s₀ : AesCtrState} {ns : List ℕ} {bytes : List UInt8} {p : ℕ} {f f' f'' : Flow}

/-- What `encryptReady` does with a piece that is shown. -/
theorem encryptReady_eq {begin_ begin' end' : ChainBufferIterator} {piece copied : List UInt8}
    {k : ℕ}
    (hprepare : f.input.begin_.prepareRead f.memory = .ok (piece, begin_)) (hne : piece ≠ [])
    (hoffset : begin_.offset = f.input.begin_.offset) (hroom : piece.length ≤ f.input.size)
    (hconfirm : begin_.confirmRead piece.length = .ok begin')
    (hadvance : f.output.end_.advance (begin_.reader.copyFrom f.memory (f.state.xor piece))
      piece.length 0 = .ok (k, copied, end')) :
    f.encryptReady = .ok (true, { f with
      memory := begin_.reader.copyFrom f.memory (f.state.xor piece)
      input := { f.input with begin_ := begin' }
      state := f.state.advance piece.length
      output := { f.output with end_ := end' } }) := by
  have hready : f.input.prepareRead f.memory = .ok (piece, { f.input with begin_ }) := by
    simp only [ChainBufferReader.prepareRead, hprepare, ok_bind, pure_eq_ok,
      List.take_of_length_le hroom]
  rw [ChainBufferReader.size] at hroom
  have htake : ({ f.input with begin_ } : ChainBufferReader).confirmRead piece.length =
      .ok { f.input with begin_ := begin' } := by
    simp [ChainBufferReader.confirmRead, ChainBufferReader.size, hoffset, hroom, hconfirm]
  simp [encryptReady, hready, hne, htake, hadvance]

/-- The members of the stage and of the sink other than their buffers. -/
structure SameMembers (f f' : Flow) : Prop where
  base : f'.base = f.base
  sourceHasParent : f'.sourceHasParent = f.sourceHasParent
  sinkActive : f'.sinkActive = f.sinkActive
  sinkStatus : f'.sinkStatus = f.sinkStatus

/-- Of these bytes of the chain `ns` the first `p` have been encrypted, and these are what the sink
sees. -/
structure Encrypted (s₀ : AesCtrState) (ns : List ℕ) (bytes : List UInt8) (p : ℕ) (f : Flow) :
    Prop where
  memory : f.memory.Ok
  own : f.memory.OwnBytes
  writer : WriterAt f.memory ns f.writer
    { bytes := s₀.xor (bytes.take p) ++ bytes.drop p, hasHead := false }
  le : p ≤ bytes.length
  begin_at : At f.memory ns true f.input.begin_
  begin_eq : f.input.begin_.offset = p
  begin_read : f.input.begin_.reader.size = 0
  end_at : At f.memory ns true f.input.end_
  sync : f.input.syncFlag = true
  outBegin_at : At f.memory ns true f.output.begin_
  outBegin_eq : f.output.begin_.offset = 0
  outEnd_at : At f.memory ns true f.output.end_
  outEnd_eq : f.output.end_.offset = p
  outSync : f.output.syncFlag = false
  state : f.state = s₀.advance p

/-- The end of the input has been seen. -/
def Synced (bytes : List UInt8) (f : Flow) : Prop := f.input.end_.offset = bytes.length

namespace Encrypted

theorem stream_eq (h : Encrypted s₀ ns bytes p f) :
    stream f.memory ns = s₀.xor (bytes.take p) ++ bytes.drop p := h.writer.bytes

theorem length_stream (h : Encrypted s₀ ns bytes p f) :
    (stream f.memory ns).length = bytes.length := by
  have := h.le
  rw [h.stream_eq, List.length_append, AesCtrState.length_xor, List.length_take, List.length_drop]
  omega

/-- The sink sees what has been encrypted. -/
theorem visible_eq (h : Encrypted s₀ ns bytes p f) : f.visible = s₀.xor (bytes.take p) := by
  have hreader : ReaderAt f.memory ns true f.output { window := ⟨0, p⟩, sync := false } :=
    ⟨h.outBegin_at, h.outEnd_at, h.outBegin_eq, h.outEnd_eq, h.outSync, Nat.zero_le _⟩
  have hwithin : Window.Within ⟨0, p⟩ (stream f.memory ns) :=
    ⟨Nat.zero_le p, h.length_stream ▸ h.le⟩
  have hlength : (s₀.xor (bytes.take p)).length = p := by
    rw [AesCtrState.length_xor, List.length_take, Nat.min_eq_left h.le]
  rw [visible, hreader.contents_eq h.memory h.writer.chain hwithin, Window.read, List.drop_zero,
    h.stream_eq]
  exact List.take_left' hlength

/-- The pieces are what has not been encrypted. -/
theorem flatten_pieces (h : Encrypted s₀ ns bytes p f) :
    (f.input.begin_.pieces f.memory).flatten = bytes.drop p := by
  have hlength : (s₀.xor (bytes.take p)).length = p := by
    rw [AesCtrState.length_xor, List.length_take, Nat.min_eq_left h.le]
  rw [h.begin_at.flatten_pieces h.memory h.writer.chain, h.begin_eq, h.stream_eq,
    List.drop_left' hlength]

/-- `get_read_size` -/
theorem getReadSize_spec (h : Encrypted s₀ ns bytes p f) :
    ∃ f', f.getReadSize = .ok (bytes.length - p, f') ∧ Encrypted s₀ ns bytes p f' ∧
      Synced bytes f' ∧ SameMembers f f' ∧
      f'.input.begin_.pieces f'.memory = f.input.begin_.pieces f.memory := by
  obtain ⟨end_, hadvance, hat, hoffset⟩ :=
    ChainBufferIterator.advanceTillEnd_spec h.memory h.writer.chain h.end_at
  rw [h.length_stream] at hoffset
  refine ⟨{ f with input := { f.input with end_ } }, ?_, { h with end_at := hat }, hoffset,
    ⟨rfl, rfl, rfl, rfl⟩, rfl⟩
  simp [getReadSize, ChainBufferReader.syncWithWriter, h.sync, hadvance, ChainBufferReader.size,
    hoffset, h.begin_eq]

theorem sinkWakeup_eq (h : Encrypted s₀ ns bytes p f) : f.sinkWakeup = .ok f := by
  simp [sinkWakeup, ChainBufferReader.syncWithWriter, h.outSync]

/-- Nothing is ready. -/
theorem encryptReady_nil (h : Encrypted s₀ ns bytes p f) (hsynced : Synced bytes f)
    (hpieces : f.input.begin_.pieces f.memory = []) :
    ∃ f', f.encryptReady = .ok (false, f') ∧ Encrypted s₀ ns bytes p f' ∧ Synced bytes f' ∧
      SameMembers f f' ∧ f'.input.begin_.pieces f'.memory = [] := by
  obtain ⟨begin_, hprepare, hat, hoffset, hshown, hleft⟩ :=
    ChainBufferIterator.prepareRead_pieces h.memory h.own h.writer.chain h.begin_at h.begin_read
  rw [hpieces, List.headD_nil] at hshown
  have hread : begin_.reader.size = 0 := by rw [← hat.readable.length_asSlice, hshown]; rfl
  refine ⟨{ f with input := { f.input with begin_ } }, ?_,
    { h with begin_at := hat, begin_eq := hoffset.trans h.begin_eq, begin_read := hread }, hsynced,
    ⟨rfl, rfl, rfl, rfl⟩, hleft.trans hpieces⟩
  simp [encryptReady, ChainBufferReader.prepareRead, hprepare, hshown]

/-- The first piece is encrypted. -/
theorem encryptReady_cons (h : Encrypted s₀ ns bytes p f) (hsynced : Synced bytes f)
    {piece : List UInt8} {rest : List (List UInt8)}
    (hpieces : f.input.begin_.pieces f.memory = piece :: rest) :
    ∃ f', f.encryptReady = .ok (true, f') ∧ Encrypted s₀ ns bytes (p + piece.length) f' ∧
      Synced bytes f' ∧ SameMembers f f' ∧ f'.input.begin_.pieces f'.memory = rest := by
  obtain ⟨begin_, hprepare, hat, hoffset, hshown, hleft⟩ :=
    ChainBufferIterator.prepareRead_pieces h.memory h.own h.writer.chain h.begin_at h.begin_read
  rw [hpieces] at hleft
  rw [hpieces, List.headD_cons] at hshown
  have hdrop : bytes.drop p = piece ++ rest.flatten := by
    rw [← h.flatten_pieces, hpieces, List.flatten_cons]
  have hne : piece ≠ [] := ne_nil_of_mem_pieces (hpieces ▸ List.mem_cons_self)
  have hfits : p + piece.length ≤ bytes.length := by
    have hlength := congrArg List.length hdrop
    have hle := h.le
    rw [List.length_drop, List.length_append] at hlength
    omega
  have hsize : begin_.reader.size = piece.length := by rw [← hat.readable.length_asSlice, hshown]
  -- The bytes are overwritten, and nothing moves.
  have hlength : (f.state.xor piece).length = piece.length := f.state.length_xor piece
  have hshape : SameShape f.memory (begin_.reader.copyFrom f.memory (f.state.xor piece)) :=
    sameShape_copyFrom hat.readable (hlength.trans hsize.symm).le
  have hstream := stream_copyFrom h.memory h.own h.writer.chain hat (hlength.trans hsize.symm).le
  rw [hoffset, h.begin_eq, h.stream_eq, h.state, s₀.patch_xor h.le hdrop, ← h.state] at hstream
  -- Both iterators move over them.
  obtain ⟨begin', hconfirm, hat', hoffset', hshown'⟩ :=
    ChainBufferIterator.confirmRead_spec hat hsize.ge
  have hread' : begin'.reader.size = 0 := by
    rw [← hat'.readable.length_asSlice, hshown', hshown, List.drop_length]
    rfl
  obtain ⟨end', hadvance, hendAt, hendOffset⟩ := ChainBufferIterator.advance_spec
    (hshape.ok h.memory) (hshape.chain h.writer.chain) (hshape.at_chain h.outEnd_at) piece.length 0
  rw [hshape.length_stream, h.length_stream, h.outEnd_eq, Nat.min_eq_left (by omega)] at hendOffset
  refine ⟨{ f with
    memory := begin_.reader.copyFrom f.memory (f.state.xor piece)
    input := { f.input with begin_ := begin' }
    state := f.state.advance piece.length
    output := { f.output with end_ := end' } }, ?_, ?_, hsynced, ⟨rfl, rfl, rfl, rfl⟩, ?_⟩
  · have hroom : piece.length ≤ f.input.size := by
      rw [ChainBufferReader.size, hsynced, h.begin_eq]
      omega
    exact encryptReady_eq (hshown ▸ hprepare) hne hoffset hroom hconfirm hadvance
  · exact {
      memory := hshape.ok h.memory
      own := hshape.ownBytes h.own
      writer := hstream ▸ hshape.writerAt h.writer
      le := hfits
      begin_at := hshape.at_chain hat'
      begin_eq := hoffset'.trans (by rw [hoffset, h.begin_eq])
      begin_read := hread'
      end_at := hshape.at_chain h.end_at
      sync := h.sync
      outBegin_at := hshape.at_chain h.outBegin_at
      outBegin_eq := h.outBegin_eq
      outEnd_at := hendAt
      outEnd_eq := hendOffset
      outSync := h.outSync
      state := by rw [h.state, AesCtrState.advance_advance] }
  · exact pieces_confirm h.memory h.own h.writer.chain hat hleft hshown hlength hconfirm

/-- The first piece, if there is one. -/
theorem encryptReady_spec (h : Encrypted s₀ ns bytes p f) (hsynced : Synced bytes f) :
    ∃ f', f.encryptReady = .ok (!(f.input.begin_.pieces f.memory).isEmpty, f') ∧
      Encrypted s₀ ns bytes (p + ((f.input.begin_.pieces f.memory).headD []).length) f' ∧
      Synced bytes f' ∧ SameMembers f f' ∧
      f'.input.begin_.pieces f'.memory = (f.input.begin_.pieces f.memory).tail := by
  cases hpieces : f.input.begin_.pieces f.memory with
  | nil => exact h.encryptReady_nil hsynced hpieces
  | cons piece rest => exact h.encryptReady_cons hsynced hpieces

end Encrypted

/-! ## The flags -/

/-- A stage that works, between a source and a sink that do. -/
structure Running (f : Flow) : Prop where
  stopFlag : f.base.stopFlag = false
  hasInput : f.base.hasInput = true
  waitingFlag : f.base.waitingFlag = false
  hasParent : f.base.hasParent = true
  options : f.base.options = {}
  needSize : f.base.needSize ≤ 1
  sourceHasParent : f.sourceHasParent = true
  sinkActive : f.sinkActive = true
  sinkStatus : f.sinkStatus = .ok

theorem SameMembers.running (h : SameMembers f f') (hrun : Running f) : Running f' := by
  obtain ⟨hbase, hsource, hactive, hstatus⟩ := h
  exact ⟨hbase ▸ hrun.stopFlag, hbase ▸ hrun.hasInput, hbase ▸ hrun.waitingFlag,
    hbase ▸ hrun.hasParent, hbase ▸ hrun.options, hbase ▸ hrun.needSize,
    hsource ▸ hrun.sourceHasParent, hactive ▸ hrun.sinkActive, hstatus ▸ hrun.sinkStatus⟩

/-- With the default watermarks, a stage that needs no more than one byte can read what it needs. -/
theorem nextCanRead_eq {b : ByteFlow.Base} (hoptions : b.options = {}) (hneed : b.needSize ≤ 1)
    (readSize : ℕ) :
    b.nextCanRead readSize = (!b.isInputActive || decide (b.needSize ≤ readSize)) := by
  have hlow : min b.needSize (2 ^ 64 - 1) = b.needSize := Nat.min_eq_left (by omega)
  rw [ByteFlow.Base.nextCanRead, hoptions]
  cases b.isInputActive with
  | false => rfl
  | true =>
    show (if readSize ≥ max b.needSize 0 then true
      else if readSize < min b.needSize (2 ^ 64 - 1) then false else b.canRead) = _
    rw [hlow, Nat.max_zero, Bool.not_true, Bool.false_or]
    by_cases hle : b.needSize ≤ readSize
    · rw [if_pos hle, decide_eq_true hle]
    · rw [if_neg hle, if_pos (not_le.mp hle), decide_eq_false hle]

/-- The default watermarks are no limit to a size. -/
theorem nextCanWrite_eq {b : ByteFlow.Base} (hoptions : b.options = {}) (writeSize : ℕ) :
    b.nextCanWrite writeSize = decide (writeSize < 2 ^ 64) := by
  rw [ByteFlow.Base.nextCanWrite, hoptions]
  show (if writeSize ≤ 2 ^ 64 - 1 then true else if writeSize > 0 then false else b.canWrite) = _
  by_cases hlt : writeSize < 2 ^ 64
  · rw [if_pos (by omega), decide_eq_true hlt]
  · rw [if_neg (by omega), if_pos (by omega), decide_eq_false hlt]

theorem Encrypted.setBase (h : Encrypted s₀ ns bytes p f) (base : ByteFlow.Base) :
    Encrypted s₀ ns bytes p { f with base } := { h with }

theorem Encrypted.updateCanRead_spec (h : Encrypted s₀ ns bytes p f) (hsynced : Synced bytes f)
    (hrun : Running f) :
    ∃ f', f.updateCanRead = .ok f' ∧ Encrypted s₀ ns bytes p f' ∧ Synced bytes f' ∧
      SameMembers { f with base := { f.base with
        canRead := !f.base.isInputActive || decide (f.base.needSize ≤ bytes.length - p) } } f' ∧
      f'.input.begin_.pieces f'.memory = f.input.begin_.pieces f.memory := by
  have hflag := nextCanRead_eq hrun.options hrun.needSize
  cases hactive : f.base.isInputActive with
  | false =>
    refine ⟨{ f with base := { f.base with canRead := f.base.nextCanRead 0 } }, ?_, h.setBase _,
      hsynced, ⟨?_, rfl, rfl, rfl⟩, rfl⟩
    · rw [updateCanRead, hactive]
      rfl
    · rw [hflag, hactive]
      rfl
  | true =>
    obtain ⟨g, hsize, hg, hgsynced, hsame, hpieces⟩ := h.getReadSize_spec
    refine ⟨{ g with base := { g.base with canRead := g.base.nextCanRead (bytes.length - p) } }, ?_,
      hg.setBase _, hgsynced,
      ⟨?_, hsame.sourceHasParent, hsame.sinkActive, hsame.sinkStatus⟩, hpieces⟩
    · rw [updateCanRead, hactive, if_pos rfl, hsize]
      rfl
    · rw [hsame.base, hflag, hactive]

theorem Encrypted.updateCanWrite_spec (h : Encrypted s₀ ns bytes p f) (hrun : Running f) :
    f.updateCanWrite = .ok { f with base := { f.base with canWrite := decide (p < 2 ^ 64) } } := by
  simp [updateCanWrite, getWriteSize, hrun.hasParent, sinkReadSize, h.sinkWakeup_eq,
    ChainBufferReader.size, h.outEnd_eq, h.outBegin_eq, nextCanWrite_eq hrun.options]

/-- What a round of the loop finds out first. -/
theorem Encrypted.flags_spec (h : Encrypted s₀ ns bytes p f) (hsynced : Synced bytes f)
    (hrun : Running f) :
    ∃ f₁ f₂, f.updateCanRead = .ok f₁ ∧ f₁.updateCanWrite = .ok f₂ ∧
      Encrypted s₀ ns bytes p f₂ ∧ Synced bytes f₂ ∧ Running f₂ ∧
      f₂.base = { f.base with
        canRead := !f.base.isInputActive || decide (f.base.needSize ≤ bytes.length - p)
        canWrite := decide (p < 2 ^ 64) } ∧
      f₂.input.begin_.pieces f₂.memory = f.input.begin_.pieces f.memory := by
  obtain ⟨f₁, hread, h₁, hsynced₁, hsame, hpieces⟩ := h.updateCanRead_spec hsynced hrun
  have hrun₁ : Running f₁ := hsame.running { hrun with }
  refine ⟨f₁, _, hread, h₁.updateCanWrite_spec hrun₁, h₁.setBase _, hsynced₁, { hrun₁ with }, ?_,
    hpieces⟩
  show ({ f₁.base with canWrite := decide (p < 2 ^ 64) } : ByteFlow.Base) = _
  rw [hsame.base]

/-! ## The loop -/

theorem whileLoop_stop (hstop : f.base.stopFlag = true) (rounds : ℕ) :
    whileLoop (rounds + 1) f = .ok f := by
  rw [whileLoop, if_pos hstop]
  rfl

theorem whileLoop_round {f₁ f₂ : Flow} (hrun : Running f) (hread : f.updateCanRead = .ok f₁)
    (hwrite : f₁.updateCanWrite = .ok f₂) (rounds : ℕ) :
    whileLoop (rounds + 1) f =
      if !f₂.base.canRead || !f₂.base.canWrite then .ok f₂
      else f₂.callLoop >>= whileLoop rounds := by
  rw [whileLoop, if_neg (Bool.eq_false_iff.mp hrun.stopFlag), hread, ok_bind, hwrite, ok_bind]
  rfl

theorem Encrypted.finish_eq (h : Encrypted s₀ ns bytes p f) (hrun : Running f) :
    f.finish .ok = .ok { f with
      base := f.base.finish, sinkActive := false, sinkStatus := .ok } := by
  simp [finish, hrun.hasParent, sinkCloseInput, hrun.sinkActive, ChainBufferReader.syncWithWriter,
    h.outSync]

theorem loop_open {progress : Bool} (hready : f.encryptReady = .ok (progress, f'))
    (hopen : f'.base.isInputActive = true) : f.loop = .ok (progress, f') := by
  simp [loop, hready, hopen]

theorem loop_closed {progress : Bool} (hready : f.encryptReady = .ok (progress, f'))
    (hclosed : f'.base.isInputActive = false) (hfinish : f'.finish .ok = .ok f'') :
    f.loop = .ok (progress, f'') := by
  simp [loop, hready, hclosed, hfinish]

theorem callLoop_progress (hloop : f.resetNeedSize.loop = .ok (true, f')) :
    f.callLoop = .ok f' := by
  simp [callLoop, hloop]

theorem callLoop_noProgress {n : ℕ} (hloop : f.resetNeedSize.loop = .ok (false, f'))
    (hsize : f'.getReadSize = .ok (n, f'')) (hneed : f''.base.needSize = 0) :
    f.callLoop = .ok { f'' with base := { f''.base with needSize := n + 1 } } := by
  simp [callLoop, hloop, noProgress, hsize, hneed]

/-- While the input is open, a call of `loop` encrypts the next piece, and when there is none, the
stage needs more than there is. -/
theorem Encrypted.callLoop_open (h : Encrypted s₀ ns bytes p f) (hsynced : Synced bytes f)
    (hrun : Running f) (hopen : f.base.isInputActive = true) :
    ∃ f', f.callLoop = .ok f' ∧
      Encrypted s₀ ns bytes (p + ((f.input.begin_.pieces f.memory).headD []).length) f' ∧
      Synced bytes f' ∧ Running f' ∧ f'.base.isInputActive = true ∧
      f'.input.begin_.pieces f'.memory = (f.input.begin_.pieces f.memory).tail ∧
      (f.input.begin_.pieces f.memory = [] → bytes.length - p < f'.base.needSize) := by
  obtain ⟨g, hready, hg, hgsynced, hsame, hleft⟩ :=
    (show Encrypted s₀ ns bytes p f.resetNeedSize from h.setBase _).encryptReady_spec hsynced
  change f.resetNeedSize.encryptReady = .ok (!(f.input.begin_.pieces f.memory).isEmpty, g) at hready
  have hgrun : Running g := hsame.running { hrun with needSize := Nat.zero_le 1 }
  have hgopen : g.base.isInputActive = true := by rw [hsame.base]; exact hopen
  have hloop := loop_open hready hgopen
  by_cases hpieces : f.input.begin_.pieces f.memory = []
  · have hdone : bytes.length - p = 0 := by
      rw [← List.length_drop, ← h.flatten_pieces, hpieces]
      rfl
    obtain ⟨g', hsize, hg', hgsynced', hsame', hleft'⟩ := hg.getReadSize_spec
    have hgrun' := hsame'.running hgrun
    have hneed : g'.base.needSize = 0 := by rw [hsame'.base, hsame.base]; rfl
    rw [hpieces] at hloop
    refine ⟨_, callLoop_noProgress hloop hsize hneed, hg'.setBase _, hgsynced',
      { hgrun' with needSize := ?_ }, ?_, hleft'.trans hleft, fun _ ↦ ?_⟩
    · show _ - _ + 1 ≤ 1
      omega
    · rw [hsame'.base]
      exact hgopen
    · rw [hdone]
      exact Nat.succ_pos _
  · rw [List.isEmpty_eq_false_iff.mpr hpieces] at hloop
    exact ⟨g, callLoop_progress hloop, hg, hgsynced, hgrun, hgopen, hleft,
      fun hnil ↦ absurd hnil hpieces⟩

theorem Encrypted.callLoop_closed (h : Encrypted s₀ ns bytes p f) (hsynced : Synced bytes f)
    (hrun : Running f) (hclosed : f.base.isInputActive = false) :
    ∃ f', f.callLoop = .ok f' ∧
      Encrypted s₀ ns bytes (p + ((f.input.begin_.pieces f.memory).headD []).length) f' ∧
      f'.base.stopFlag = true ∧ f'.base.hasParent = false ∧ f'.ReadyOk := by
  obtain ⟨g, hready, hg, -, hsame, -⟩ :=
    (show Encrypted s₀ ns bytes p f.resetNeedSize from h.setBase _).encryptReady_spec hsynced
  change f.resetNeedSize.encryptReady = .ok (!(f.input.begin_.pieces f.memory).isEmpty, g) at hready
  have hgrun : Running g := hsame.running { hrun with needSize := Nat.zero_le 1 }
  have hgclosed : g.base.isInputActive = false := by rw [hsame.base]; exact hclosed
  have hfinished : Encrypted s₀ ns bytes _
      { g with base := g.base.finish, sinkActive := false, sinkStatus := .ok } := { hg with }
  have hloop := loop_closed hready hgclosed (hg.finish_eq hgrun)
  by_cases hpieces : f.input.begin_.pieces f.memory = []
  · obtain ⟨g', hsize, hg', -, hsame', -⟩ := hfinished.getReadSize_spec
    rw [hpieces] at hloop
    refine ⟨_, callLoop_noProgress hloop hsize (by rw [hsame'.base]; rfl), hg'.setBase _, ?_, ?_,
      hsame'.sinkActive, hsame'.sinkStatus⟩
    · rw [hsame'.base]
      rfl
    · rw [hsame'.base]
      rfl
  · rw [List.isEmpty_eq_false_iff.mpr hpieces] at hloop
    exact ⟨_, callLoop_progress hloop, hfinished, rfl, rfl, rfl, rfl⟩

/-- A call of `loop` that makes no progress is the last one. -/
theorem whileLoop_full (h : Encrypted s₀ ns bytes p f) (hsynced : Synced bytes f)
    (hrun : Running f) (hopen : f.base.isInputActive = true)
    (hneed : bytes.length - p < f.base.needSize) (rounds : ℕ) :
    ∃ f', whileLoop (rounds + 1) f = .ok f' ∧ Encrypted s₀ ns bytes p f' ∧ Running f' ∧
      f'.base.isInputActive = true := by
  obtain ⟨f₁, f₂, hread, hwrite, h₂, -, hrun₂, hbase, -⟩ := h.flags_spec hsynced hrun
  refine ⟨f₂, ?_, h₂, hrun₂, by rw [hbase]; exact hopen⟩
  rw [whileLoop_round hrun hread hwrite, if_pos]
  rw [hbase, hopen, decide_eq_false (not_le.mpr hneed)]
  rfl

/-- The pieces are encrypted one after the other, as long as the sink has room. -/
theorem whileLoop_open (rounds : ℕ) : ∀ p f, Encrypted s₀ ns bytes p f → Synced bytes f →
    Running f → f.base.isInputActive = true →
    (f.input.begin_.pieces f.memory).length + 2 ≤ rounds →
    ∃ p' f', whileLoop rounds f = .ok f' ∧ Encrypted s₀ ns bytes p' f' ∧ Running f' ∧
      f'.base.isInputActive = true := by
  induction rounds with
  | zero =>
    intro p f h hsynced hrun hopen hrounds
    omega
  | succ rounds ih =>
    intro p f h hsynced hrun hopen hrounds
    obtain ⟨f₁, f₂, hread, hwrite, h₂, hsynced₂, hrun₂, hbase, hpieces₂⟩ :=
      h.flags_spec hsynced hrun
    have hopen₂ : f₂.base.isInputActive = true := by rw [hbase]; exact hopen
    rw [whileLoop_round hrun hread hwrite]
    split_ifs with hflags
    · exact ⟨p, f₂, rfl, h₂, hrun₂, hopen₂⟩
    · obtain ⟨f₃, hcall, h₃, hsynced₃, hrun₃, hopen₃, hpieces₃, hneed₃⟩ :=
        h₂.callLoop_open hsynced₂ hrun₂ hopen₂
      rw [hcall, ok_bind]
      cases hpieces : f.input.begin_.pieces f.memory with
      | nil =>
        obtain ⟨k, rfl⟩ := Nat.exists_eq_add_of_le' (show 1 ≤ rounds by omega)
        obtain ⟨f₄, hloop, h₄, hrun₄, hopen₄⟩ := whileLoop_full h₃ hsynced₃ hrun₃ hopen₃
          (lt_of_le_of_lt (by omega) (hneed₃ (hpieces₂.trans hpieces))) k
        exact ⟨_, f₄, hloop, h₄, hrun₄, hopen₄⟩
      | cons piece rest =>
        refine ih _ f₃ h₃ hsynced₃ hrun₃ hopen₃ ?_
        rw [hpieces₃, hpieces₂, hpieces, List.tail_cons]
        rw [hpieces, List.length_cons] at hrounds
        omega

/-- After the end of the input, one piece is encrypted. -/
theorem whileLoop_closed (h : Encrypted s₀ ns bytes p f) (hsynced : Synced bytes f)
    (hrun : Running f) (hclosed : f.base.isInputActive = false) (rounds : ℕ) :
    ∃ f', whileLoop (rounds + 2) f = .ok f' ∧
      ((p < 2 ^ 64 ∧ f'.ReadyOk ∧ f'.base.hasParent = false ∧ Encrypted s₀ ns bytes
          (p + ((f.input.begin_.pieces f.memory).headD []).length) f') ∨
        (¬p < 2 ^ 64 ∧ Running f' ∧ Encrypted s₀ ns bytes p f')) := by
  obtain ⟨f₁, f₂, hread, hwrite, h₂, hsynced₂, hrun₂, hbase, hpieces₂⟩ := h.flags_spec hsynced hrun
  have hclosed₂ : f₂.base.isInputActive = false := by rw [hbase]; exact hclosed
  rw [whileLoop_round hrun hread hwrite, hbase, hclosed]
  by_cases hroom : p < 2 ^ 64
  · obtain ⟨f₃, hcall, h₃, hstop, hparent, hready⟩ := h₂.callLoop_closed hsynced₂ hrun₂ hclosed₂
    rw [hpieces₂] at h₃
    refine ⟨f₃, ?_, .inl ⟨hroom, hready, hparent, h₃⟩⟩
    rw [decide_eq_true hroom, if_neg (by simp), hcall, ok_bind, whileLoop_stop hstop]
  · refine ⟨f₂, ?_, .inr ⟨hroom, hrun₂, h₂⟩⟩
    rw [decide_eq_false hroom, if_pos (by simp)]

/-! ## Runs -/

theorem Encrypted.length_pieces_le (h : Encrypted s₀ ns bytes p f) :
    (f.input.begin_.pieces f.memory).length ≤ f.memory.chainBytes :=
  calc (f.input.begin_.pieces f.memory).length
      ≤ (f.input.begin_.pieces f.memory).flatten.length := Buffer.length_pieces_le _ _
    _ ≤ (stream f.memory ns).length := by
      rw [h.begin_at.flatten_pieces h.memory h.writer.chain, List.length_drop]
      exact Nat.sub_le _ _
    _ ≤ f.memory.chainBytes := h.writer.chain.length_stream_le

/-- The input is open: anything may happen. -/
structure Open (s₀ : AesCtrState) (bytes : List UInt8) (f : Flow) : Prop where
  encrypted : ∃ ns p, Encrypted s₀ ns bytes p f
  running : Running f
  isInputActive : f.base.isInputActive = true

theorem new_spec (s₀ : AesCtrState) : ∃ f, new s₀ = .ok f ∧ Open s₀ [] f := by
  have hempty : ({} : Buffer.Memory).Ok := ⟨by simp, by simp, by simp, by simp, by simp⟩
  obtain ⟨m, w, hnew, hm, hw, -⟩ := WriterAt.new_spec hempty
  have hm_eq : m = (ChainBufferWriter.new {}).2 := by rw [hnew]
  have hown : m.OwnBytes := by
    rw [hm_eq]
    exact ownBytes_createNode ⟨by simp, by simp, by simp⟩ 0
  have hsync : (m.node 0).syncFlag = true := by
    rw [hm_eq]
    rfl
  obtain ⟨n, end_, hn, hextract, hbegin, hend, -, hw'⟩ := hw.extractReader_spec hm rfl
  obtain rfl : 0 = n := Option.some.inj hn
  refine ⟨{
    memory := m
    writer := { w with head_ := Option.none }
    input := { begin_ := ChainBufferIterator.new m 0, end_ }
    state := s₀
    output := { begin_ := ChainBufferIterator.new m 0, end_ := ChainBufferIterator.new m 0,
                syncFlag := false } },
    by simp only [new, hnew, hextract, ok_bind, pure_eq_ok], ⟨[0], 0, ?_⟩,
    ⟨rfl, rfl, rfl, rfl, rfl, Nat.zero_le 1, rfl, rfl, rfl⟩, rfl⟩
  exact {
    memory := hm
    own := hown
    writer := hw'
    le := Nat.zero_le _
    begin_at := hbegin
    begin_eq := rfl
    begin_read := hown.sync_size 0 (hw.lt 0 (by simp)) hsync
    end_at := hend
    sync := rfl
    outBegin_at := hbegin
    outBegin_eq := rfl
    outEnd_at := hbegin
    outEnd_eq := rfl
    outSync := rfl
    state := rfl }

theorem wakeup_eq {g g' : Flow} {n : ℕ} (hstop : f.base.stopFlag = false)
    (hinput : f.base.hasInput = true) (hsize : f.getReadSize = .ok (n, g))
    (hwaiting : g.base.waitingFlag = false)
    (hloop : whileLoop (g.memory.chainBytes + 2) g = .ok g') :
    f.wakeup = if g'.base.hasParent then g'.sinkWakeup else .ok g' := by
  simp [Flow.wakeup, hstop, hinput, hsize, hwaiting, hloop]

/-- What is appended is not encrypted. -/
theorem Encrypted.grow {m : Buffer.Memory} {ns' : List ℕ} {w : ChainBufferWriter}
    (h : Encrypted s₀ ns bytes p f) (chunk : List UInt8) (hm : m.Ok) (hown : m.OwnBytes)
    (hext : Extends f.memory ns m ns')
    (hw : WriterAt m ns' w
      { bytes := s₀.xor (bytes.take p) ++ bytes.drop p ++ chunk, hasHead := false }) :
    Encrypted s₀ ns' (bytes ++ chunk) p { f with memory := m, writer := w } where
  memory := hm
  own := hown
  writer := by
    rw [List.take_append_of_le_length h.le, List.drop_append_of_le_length h.le,
      ← List.append_assoc]
    exact hw
  le := h.le.trans (List.length_append ▸ Nat.le_add_right _ _)
  begin_at := hext.at_same h.begin_at true
  begin_eq := h.begin_eq
  begin_read := h.begin_read
  end_at := hext.at_same h.end_at true
  sync := h.sync
  outBegin_at := hext.at_same h.outBegin_at true
  outBegin_eq := h.outBegin_eq
  outEnd_at := hext.at_same h.outEnd_at true
  outEnd_eq := h.outEnd_eq
  outSync := h.outSync
  state := h.state

theorem Open.append (h : Open s₀ bytes f) (chunk : List UInt8) (hint : ℕ) :
    ∃ f', f.step (.append chunk hint) = .ok f' ∧ Open s₀ (bytes ++ chunk) f' := by
  obtain ⟨⟨ns, p, henc⟩, hrun, hopen⟩ := h
  obtain ⟨m, ns', w, happend, hm, hw, hext⟩ := henc.writer.append_spec henc.memory rfl chunk hint
  have hown := ownBytes_appendLoop henc.own happend
  exact ⟨{ f with writer := w, memory := m }, by simp [step, happend],
    ⟨ns', p, henc.grow chunk hm hown hext hw⟩, { hrun with }, hopen⟩

theorem Open.appendBufferSlice (h : Open s₀ bytes f) (chunk : List UInt8) :
    ∃ f', f.step (.appendBufferSlice chunk) = .ok f' ∧ Open s₀ (bytes ++ chunk) f' := by
  obtain ⟨⟨ns, p, henc⟩, hrun, hopen⟩ := h
  obtain ⟨s, m₁, hslice, hm₁, hext₁, hread, hbytes⟩ := BufferSlice.ofSlice_spec henc.memory chunk
  have hw₁ := henc.writer.other hext₁ (by simp)
  obtain ⟨m, ns', w, happend, hm, hw, hext⟩ := hw₁.appendBufferSlice_spec hm₁ rfl hread
  have hown := ownBytes_appendNewSlice henc.memory henc.own hslice hread hext₁ happend
  rw [hbytes] at hw
  exact ⟨{ f with writer := w, memory := m }, by simp [step, hslice, happend],
    ⟨ns', p, henc.grow chunk hm hown ((hext₁.of_nil henc.writer.lt).trans hext) hw⟩,
    { hrun with }, hopen⟩

theorem Open.wakeup (h : Open s₀ bytes f) : ∃ f', f.step .wakeup = .ok f' ∧ Open s₀ bytes f' := by
  obtain ⟨⟨ns, p, henc⟩, hrun, hopen⟩ := h
  obtain ⟨g, hsize, hg, hsynced, hsame, -⟩ := henc.getReadSize_spec
  have hgopen : g.base.isInputActive = true := by rw [hsame.base]; exact hopen
  obtain ⟨p', f', hloop, henc', hrun', hopen'⟩ := whileLoop_open (g.memory.chainBytes + 2) p g hg
    hsynced (hsame.running hrun) hgopen (Nat.add_le_add_right hg.length_pieces_le 2)
  have hwakeup := wakeup_eq hrun.stopFlag hrun.hasInput hsize (hsame.running hrun).waitingFlag hloop
  rw [if_pos hrun'.hasParent, henc'.sinkWakeup_eq] at hwakeup
  refine ⟨f', ?_, ⟨⟨ns, p', henc'⟩, hrun', hopen'⟩⟩
  rw [step, sourceWakeup, if_pos hrun.sourceHasParent, hwakeup]

theorem Open.step (h : Open s₀ bytes f) (op : Op) :
    ∃ f', f.step op = .ok f' ∧ Open s₀ (bytes ++ inputOf [op]) f' := by
  cases op with
  | append chunk hint => simpa [inputOf] using h.append chunk hint
  | appendBufferSlice chunk => simpa [inputOf] using h.appendBufferSlice chunk
  | wakeup => simpa [inputOf] using h.wakeup

theorem Open.steps (h : Open s₀ bytes f) (ops : List Op) :
    ∃ f', ops.foldlM Flow.step f = .ok f' ∧ Open s₀ (bytes ++ inputOf ops) f' := by
  induction ops generalizing bytes f with
  | nil => exact ⟨f, rfl, by simpa [inputOf] using h⟩
  | cons op ops ih =>
    obtain ⟨g, hstep, hg⟩ := h.step op
    obtain ⟨f', hsteps, hf'⟩ := ih hg
    refine ⟨f', by rw [List.foldlM_cons, hstep, ok_bind, hsteps], ?_⟩
    simpa [inputOf] using hf'

theorem run_spec (s₀ : AesCtrState) (ops : List Op) :
    ∃ f, run s₀ ops = .ok f ∧ Open s₀ (inputOf ops) f := by
  obtain ⟨f, hnew, hf⟩ := new_spec s₀
  obtain ⟨g, hsteps, hg⟩ := hf.steps ops
  exact ⟨g, by rw [run, hnew, ok_bind, hsteps], hg⟩

/-- What is visible was encrypted. -/
theorem Encrypted.visible_prefix (h : Encrypted s₀ ns bytes p f) :
    f.visible <+: s₀.xor bytes := by
  rw [h.visible_eq]
  exact s₀.xor_take_prefix bytes p

/-- All of it is visible when nothing is left. -/
theorem Encrypted.visible_iff (h : Encrypted s₀ ns bytes p f) :
    f.visible = s₀.xor bytes ↔ p = bytes.length := by
  rw [h.visible_eq]
  constructor
  · intro heq
    have hlength := congrArg List.length heq
    rw [AesCtrState.length_xor, AesCtrState.length_xor, List.length_take,
      Nat.min_eq_left h.le] at hlength
    exact hlength
  · rintro rfl
    rw [List.take_length]

/-- After the first piece nothing is left when there is no second one. -/
theorem Encrypted.add_head_iff (h : Encrypted s₀ ns bytes p f) :
    p + ((f.input.begin_.pieces f.memory).headD []).length = bytes.length ↔ f.InOnePiece := by
  have hlength := congrArg List.length h.flatten_pieces
  have hle := h.le
  rw [List.length_drop] at hlength
  rw [InOnePiece]
  cases hpieces : f.input.begin_.pieces f.memory with
  | nil =>
    rw [hpieces, List.flatten_nil, List.length_nil] at hlength
    simp only [List.headD_nil, List.length_nil, Nat.add_zero, Nat.zero_le, iff_true]
    omega
  | cons piece rest =>
    rw [hpieces, List.flatten_cons, List.length_append] at hlength
    rw [List.headD_cons, List.length_cons]
    cases rest with
    | nil =>
      simp only [List.flatten_nil, List.length_nil] at hlength ⊢
      omega
    | cons piece' rest =>
      have hmem : piece' ∈ f.input.begin_.pieces f.memory := by simp [hpieces]
      have hpos := List.length_pos_of_ne_nil (ne_nil_of_mem_pieces hmem)
      rw [List.flatten_cons, List.length_append] at hlength
      rw [List.length_cons]
      omega

theorem sourceCloseInput_eq {g : Flow} (hparent : f.sourceHasParent = true)
    (hwakeup : ({ f with base := { f.base with isInputActive := false } } : Flow).wakeup = .ok g) :
    f.sourceCloseInput .ok = .ok { g with sourceHasParent := false } := by
  rw [sourceCloseInput, hparent, check_true, ok_bind, closeInput, hwakeup]
  rfl

/-- The end of the input. -/
theorem Open.close (h : Open s₀ bytes f) :
    ∃ g, f.sourceCloseInput .ok = .ok g ∧ g.visible <+: s₀.xor bytes ∧
      (bytes.length < 2 ^ 64 → g.ReadyOk) ∧
      (g.ReadyOk → (g.visible = s₀.xor bytes ↔ f.InOnePiece)) := by
  obtain ⟨⟨ns, p, henc⟩, hrun, -⟩ := h
  obtain ⟨g, hsize, hg, hsynced, hsame, hpieces⟩ :=
    (henc.setBase { f.base with isInputActive := false }).getReadSize_spec
  have hclosing : Running { f with base := { f.base with isInputActive := false } } :=
    { hrun with }
  have hgrun : Running g := hsame.running hclosing
  have hgclosed : g.base.isInputActive = false := by rw [hsame.base]
  obtain ⟨g', hloop, hcases⟩ := whileLoop_closed hg hsynced hgrun hgclosed g.memory.chainBytes
  have hwakeup := wakeup_eq hclosing.stopFlag hclosing.hasInput hsize hgrun.waitingFlag hloop
  rcases hcases with ⟨hroom, hready, hparent, hend⟩ | ⟨hfull, hrun', hend⟩
  · rw [hparent, if_neg Bool.false_ne_true] at hwakeup
    rw [hpieces] at hend
    exact ⟨_, sourceCloseInput_eq hrun.sourceHasParent hwakeup, hend.visible_prefix,
      fun _ ↦ hready, fun _ ↦ hend.visible_iff.trans henc.add_head_iff⟩
  · -- The sink has no room, so that nothing is encrypted and the sink stays open.
    rw [if_pos hrun'.hasParent, hend.sinkWakeup_eq] at hwakeup
    exact ⟨_, sourceCloseInput_eq hrun.sourceHasParent hwakeup, hend.visible_prefix,
      fun hlt ↦ absurd (lt_of_le_of_lt henc.le hlt) hfull,
      fun hready ↦ absurd (hrun'.sinkActive.symm.trans hready.1) (by simp)⟩

/-- What the sink sees is always the encryption of a first part of the input, but when it is ready,
this is all of the input only if what was left at the end lay in one piece. -/
theorem run_close (s₀ : AesCtrState) (ops : List Op) :
    ∃ f g, run s₀ ops = .ok f ∧ f.sourceCloseInput .ok = .ok g ∧ f.sinkActive = true ∧
      f.visible <+: s₀.xor (inputOf ops) ∧ g.visible <+: s₀.xor (inputOf ops) ∧
      ((inputOf ops).length < 2 ^ 64 → g.ReadyOk) ∧
      (g.ReadyOk → (g.visible = s₀.xor (inputOf ops) ↔ f.InOnePiece)) := by
  obtain ⟨f, hrun, hf⟩ := run_spec s₀ ops
  obtain ⟨g, hclose, hprefix, hready, hall⟩ := hf.close
  obtain ⟨⟨ns, p, henc⟩, hrunning, -⟩ := hf
  exact ⟨f, g, hrun, hclose, hrunning.sinkActive, henc.visible_prefix, hprefix, hready, hall⟩

set_option maxRecDepth 20000 in
/-- The first node of a chain has room for 512 bytes. -/
theorem run_close_of_two_pieces :
    ¬∀ (s₀ : AesCtrState) (ops : List Op) (f g : Flow), run s₀ ops = .ok f →
      f.sourceCloseInput .ok = .ok g → g.ReadyOk → g.visible = s₀.xor (inputOf ops) := by
  intro hall
  let s₀ : AesCtrState := { keystream := UInt8.ofNat }
  let ops : List Op := [.append (List.replicate 513 7) 0]
  obtain ⟨f, hrun, hf⟩ := run_spec s₀ ops
  obtain ⟨g, hclose, -, hready, -⟩ := hf.close
  have hvisible : (run s₀ ops >>= fun f ↦ f.sourceCloseInput .ok).toOption.map
      (fun g ↦ g.visible.length) = some 512 := by decide +kernel
  have hlength := congrArg List.length (hall s₀ ops f g hrun hclose (hready (by decide +kernel)))
  rw [hrun, ok_bind, hclose] at hvisible
  have hinput : (inputOf ops).length = 513 := by decide +kernel
  rw [AesCtrState.length_xor, hinput] at hlength
  have hcut : g.visible.length = 512 := Option.some.inj hvisible
  omega

end Flow

end PxcCore.AesCtrByteFlow
