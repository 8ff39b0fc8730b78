import PxcCore.Utils.Buffer.Slice

/-!
# Builders

`BufferBuilder`: bytes in front of and behind those of a buffer.  As long as there is room they are
written into the buffer itself.  The slices that are kept in lists, and those that `extract` gives
out, stand for the bytes in them: nobody writes to these any more.
-/

namespace PxcCore.Buffer

open Lib

/-! ## The buffer of a writer -/

/-- The buffer of a `BufferWriter`, with the flag that says whether a reader was created.  `data`
has the bytes from the first one of the buffer up to `end_`. -/
structure WriterRaw extends BufferRaw where
  wasReader : Bool := false
  begin_le : begin_ ≤ data.length
  length_le : data.length ≤ dataSize
deriving DecidableEq

namespace WriterRaw

/-- `as_slice` -/
def asSlice (raw : WriterRaw) : List UInt8 := raw.data.drop raw.begin_

/-- `BufferWriter(Slice slice, size_t prepend, size_t append)` -/
def ofSlice (slice : List UInt8) (prepend append : ℕ) : WriterRaw where
  dataSize := roundUp (if slice.length + prepend + append < 512 then 512
    else slice.length + prepend + append)
  begin_ := prepend
  data := List.replicate prepend 0 ++ slice
  begin_le := by simp
  length_le := by
    have := le_roundUp (if slice.length + prepend + append < 512 then 512
      else slice.length + prepend + append)
    simp only [List.length_append, List.length_replicate]
    split_ifs at this ⊢ <;> omega

/-- `confirm_append`, after these bytes were copied behind the end. -/
def confirmAppend (raw : WriterRaw) (bytes : List UInt8) : Except Fault WriterRaw :=
  if h : raw.data.length + bytes.length ≤ raw.dataSize then
    return { raw with
      data := raw.data ++ bytes
      begin_le := by
        rw [List.length_append]
        exact raw.begin_le.trans (Nat.le_add_right _ _)
      length_le := by rwa [List.length_append] }
  else throw .check

/-- `confirm_prepend`, after these bytes were copied in front of the begin. -/
def confirmPrepend (raw : WriterRaw) (bytes : List UInt8) : Except Fault WriterRaw :=
  if h : bytes.length ≤ raw.begin_ then
    return { raw with
      begin_ := raw.begin_ - bytes.length
      data := raw.data.take (raw.begin_ - bytes.length) ++ bytes ++ raw.data.drop raw.begin_
      begin_le := by
        have := raw.begin_le
        simp only [List.length_append, List.length_take, List.length_drop]
        omega
      length_le := by
        have := raw.begin_le
        have := raw.length_le
        simp only [List.length_append, List.length_take, List.length_drop]
        omega }
  else throw .check

end WriterRaw

/-- `prepare_append` of a writer, which may be null. -/
def prepareAppendTo : Option WriterRaw → ℕ
  | none => 0
  | some raw => raw.dataSize - raw.data.length

/-- `confirm_append` of a writer. -/
def confirmAppendTo (writer : Option WriterRaw) (bytes : List UInt8) :
    Except Fault (Option WriterRaw) :=
  match writer with
  | none => do
    check (bytes.length = 0)
    return none
  | some raw => some <$> raw.confirmAppend bytes

/-- `prepare_prepend` of a writer. -/
def preparePrependTo : Option WriterRaw → Except Fault ℕ
  | none => return 0
  | some raw => do
    check !raw.wasReader
    return raw.begin_

/-- `confirm_prepend` of a writer. -/
def confirmPrependTo (writer : Option WriterRaw) (bytes : List UInt8) :
    Except Fault (Option WriterRaw) :=
  match writer with
  | none => do
    check (bytes.length = 0)
    return none
  | some raw => some <$> raw.confirmPrepend bytes

/-- `as_buffer_slice` of a writer: `create_reader` sets a flag in the buffer, which must exist. -/
def asBufferSlice : Option WriterRaw → Except Fault (List UInt8 × Option WriterRaw)
  | none => throw .noObject
  | some raw => return (raw.asSlice, some { raw with wasReader := true })

/-! ## The builder -/

/-- `BufferBuilder` -/
structure BufferBuilder where
  bufferWriter : Option WriterRaw := none
  toAppend : List (List UInt8) := []
  toPrepend : List (List UInt8) := []
deriving DecidableEq

namespace BufferBuilder

/-- `append_inplace` -/
def appendInplace (b : BufferBuilder) (slice : List UInt8) :
    Except Fault (Bool × BufferBuilder) := do
  if b.toAppend ≠ [] then return (false, b)
  if prepareAppendTo b.bufferWriter < slice.length then return (false, b)
  let bufferWriter ← confirmAppendTo b.bufferWriter slice
  return (true, { b with bufferWriter })

/-- `append_slow` -/
def appendSlow (b : BufferBuilder) (slice : List UInt8) : BufferBuilder :=
  { b with toAppend := b.toAppend ++ [slice] }

/-- `append` of a `Slice`, of which a copy is kept, or of a `BufferSlice`, which is kept itself. -/
def append (b : BufferBuilder) (slice : List UInt8) : Except Fault BufferBuilder := do
  let (inplace, b) ← b.appendInplace slice
  if inplace then return b else return b.appendSlow slice

/-- `prepend_inplace` -/
def prependInplace (b : BufferBuilder) (slice : List UInt8) :
    Except Fault (Bool × BufferBuilder) := do
  if b.toPrepend ≠ [] then return (false, b)
  let dest ← preparePrependTo b.bufferWriter
  if dest < slice.length then return (false, b)
  let bufferWriter ← confirmPrependTo b.bufferWriter slice
  return (true, { b with bufferWriter })

/-- `prepend_slow` -/
def prependSlow (b : BufferBuilder) (slice : List UInt8) : BufferBuilder :=
  { b with toPrepend := b.toPrepend ++ [slice] }

/-- `prepend` of a `Slice` or of a `BufferSlice`. -/
def prepend (b : BufferBuilder) (slice : List UInt8) : Except Fault BufferBuilder := do
  let (inplace, b) ← b.prependInplace slice
  if inplace then return b else return b.prependSlow slice

/-- The bytes in the buffer of a writer, if it is not empty. -/
def written (writer : Option WriterRaw) : List (List UInt8) :=
  match writer with
  | none => []
  | some raw => if raw.asSlice = [] then [] else [raw.asSlice]

/-- `for_each`: the slices that the function gets. -/
def forEach (b : BufferBuilder) : List (List UInt8) :=
  b.toPrepend.reverse ++ written b.bufferWriter ++ b.toAppend

/-- `size` -/
def size (b : BufferBuilder) : ℕ :=
  b.forEach.foldl (fun totalSize slice ↦ totalSize + slice.length) 0

/-- `extract` -/
def extract (b : BufferBuilder) : Except Fault (List UInt8 × BufferBuilder) := do
  if b.toAppend = [] ∧ b.toPrepend = [] then
    let (slice, bufferWriter) ← asBufferSlice b.bufferWriter
    return (slice, { b with bufferWriter })
  else
    let writer ← b.forEach.foldlM confirmAppendTo (some (WriterRaw.ofSlice [] 0 b.size))
    let (slice, _) ← asBufferSlice writer
    return (slice, {})

/-- A piece that is added to a builder. -/
inductive Piece where
  | append (slice : List UInt8)
  | prepend (slice : List UInt8)
deriving DecidableEq

/-- The addition of a piece. -/
def add (b : BufferBuilder) : Piece → Except Fault BufferBuilder
  | .append slice => b.append slice
  | .prepend slice => b.prepend slice

/-- The addition of pieces. -/
def addAll (b : BufferBuilder) (pieces : List Piece) : Except Fault BufferBuilder :=
  pieces.foldlM add b

/-! ## What the builder is for -/

/-- The bytes of a piece. -/
def Piece.bytes : Piece → List UInt8
  | .append slice => slice
  | .prepend slice => slice

/-- Whether a piece is prepended. -/
def Piece.isPrepend : Piece → Bool
  | .append _ => false
  | .prepend _ => true

/-- The bytes after pieces are added: those that are prepended, the last one first, the bytes that
were there, and those that are appended. -/
def joined (content : List UInt8) (pieces : List Piece) : List UInt8 :=
  ((pieces.filter Piece.isPrepend).reverse.map Piece.bytes).flatten ++ content ++
    ((pieces.filter (!·.isPrepend)).map Piece.bytes).flatten

/-! ## Pieces -/

/-- The bytes in the buffer of a writer. -/
def writerBytes : Option WriterRaw → List UInt8
  | none => []
  | some raw => raw.asSlice

/-- The bytes of a builder. -/
def content (b : BufferBuilder) : List UInt8 := b.forEach.flatten

/-- A reader of the buffer was created. -/
def wasReader (b : BufferBuilder) : Bool := b.bufferWriter.any (·.wasReader)

variable {b b' : BufferBuilder} {slice content : List UInt8} {pieces : List Piece}

theorem flatten_written (writer : Option WriterRaw) :
    (written writer).flatten = writerBytes writer := by
  cases writer with
  | none => rfl
  | some raw =>
    rw [written, writerBytes]
    split_ifs with hnil
    · exact hnil.symm
    · exact List.append_nil _

theorem content_eq (b : BufferBuilder) : b.content =
    b.toPrepend.reverse.flatten ++ writerBytes b.bufferWriter ++ b.toAppend.flatten := by
  rw [BufferBuilder.content, forEach, List.flatten_append, List.flatten_append, flatten_written]

/-- `size` counts the bytes. -/
theorem size_eq (b : BufferBuilder) : b.size = b.content.length := by
  have hfold : ∀ (l : List (List UInt8)) (n : ℕ),
      l.foldl (fun totalSize slice ↦ totalSize + slice.length) n = n + l.flatten.length := by
    intro l
    induction l with
    | nil => exact fun n ↦ rfl
    | cons slice l ih =>
      intro n
      rw [List.foldl_cons, ih, List.flatten_cons, List.length_append, Nat.add_assoc]
  rw [size, hfold, Nat.zero_add, BufferBuilder.content]

/-- A builder without a buffer and without bytes has no slices either. -/
def Filled (b : BufferBuilder) : Prop :=
  b.bufferWriter = none → b.content = [] → b.toAppend = [] ∧ b.toPrepend = []

/-- Nothing may be prepended: a reader of the buffer was created, and no slice is kept in front of
it. -/
def Sealed (b : BufferBuilder) : Prop := b.toPrepend = [] ∧ b.wasReader = true

/-- The builder `b'` has the buffer of `b` with other bytes, and the bytes `content`. -/
structure Becomes (b : BufferBuilder) (content : List UInt8) (b' : BufferBuilder) : Prop where
  content_eq : b'.content = content
  isSome_eq : b'.bufferWriter.isSome = b.bufferWriter.isSome
  wasReader_eq : b'.wasReader = b.wasReader
  filled : b.Filled → b'.Filled

theorem confirmAppendTo_spec {writer : Option WriterRaw}
    (h : slice.length ≤ prepareAppendTo writer) :
    ∃ writer', confirmAppendTo writer slice = .ok writer' ∧
      writerBytes writer' = writerBytes writer ++ slice ∧ writer'.isSome = writer.isSome ∧
      writer'.any (·.wasReader) = writer.any (·.wasReader) ∧
      prepareAppendTo writer' = prepareAppendTo writer - slice.length := by
  cases writer with
  | none =>
    obtain rfl := List.eq_nil_of_length_eq_zero (Nat.le_zero.mp h)
    exact ⟨none, rfl, rfl, rfl, rfl, rfl⟩
  | some raw =>
    have hroom : raw.data.length + slice.length ≤ raw.dataSize := by
      have := raw.length_le
      rw [prepareAppendTo] at h
      omega
    obtain ⟨raw', hconfirm, hdata, hbegin, hsize, hread⟩ : ∃ raw', raw.confirmAppend slice =
        .ok raw' ∧ raw'.data = raw.data ++ slice ∧ raw'.begin_ = raw.begin_ ∧
          raw'.dataSize = raw.dataSize ∧ raw'.wasReader = raw.wasReader := by
      rw [WriterRaw.confirmAppend, dif_pos hroom]
      exact ⟨_, rfl, rfl, rfl, rfl, rfl⟩
    refine ⟨some raw', by rw [confirmAppendTo, hconfirm]; rfl, ?_, rfl, ?_, ?_⟩
    · simp only [writerBytes, WriterRaw.asSlice]
      rw [hdata, hbegin, List.drop_append_of_le_length raw.begin_le]
    · simp only [Option.any_some, hread]
    · simp only [prepareAppendTo, hdata, hsize, List.length_append]
      omega

theorem confirmPrependTo_spec {writer : Option WriterRaw}
    (hread : writer.any (·.wasReader) = false) : ∃ dest, preparePrependTo writer = .ok dest ∧
      (slice.length ≤ dest → ∃ writer', confirmPrependTo writer slice = .ok writer' ∧
        writerBytes writer' = slice ++ writerBytes writer ∧ writer'.isSome = writer.isSome ∧
        writer'.any (·.wasReader) = false) := by
  cases writer with
  | none =>
    refine ⟨0, rfl, fun h ↦ ?_⟩
    obtain rfl := List.eq_nil_of_length_eq_zero (Nat.le_zero.mp h)
    exact ⟨none, rfl, rfl, rfl, rfl⟩
  | some raw =>
    rw [Option.any_some] at hread
    refine ⟨raw.begin_, by simp [preparePrependTo, hread], fun h ↦ ?_⟩
    have hbegin := raw.begin_le
    obtain ⟨raw', hconfirm, hdata, hstart, hread'⟩ : ∃ raw', raw.confirmPrepend slice =
        .ok raw' ∧ raw'.data =
          raw.data.take (raw.begin_ - slice.length) ++ slice ++ raw.data.drop raw.begin_ ∧
        raw'.begin_ = raw.begin_ - slice.length ∧ raw'.wasReader = raw.wasReader := by
      rw [WriterRaw.confirmPrepend, dif_pos h]
      exact ⟨_, rfl, rfl, rfl, rfl⟩
    have htake : (raw.data.take (raw.begin_ - slice.length)).length =
        raw.begin_ - slice.length := by
      rw [List.length_take]
      omega
    refine ⟨some raw', by rw [confirmPrependTo, hconfirm]; rfl, ?_, rfl, hread'.trans hread⟩
    simp only [writerBytes, WriterRaw.asSlice]
    rw [hdata, hstart, List.append_assoc, List.drop_append_of_le_length htake.ge,
      List.drop_of_length_le htake.le, List.nil_append]

/-! ## Additions -/

/-- Bytes are added in the buffer. -/
theorem Becomes.inplace {writer : Option WriterRaw}
    (hcontent : BufferBuilder.content { b with bufferWriter := writer } = content)
    (hsome : writer.isSome = b.bufferWriter.isSome) (hread : writer.any (·.wasReader) = b.wasReader)
    (hle : b.content.length ≤ content.length) :
    b.Becomes content { b with bufferWriter := writer } where
  content_eq := hcontent
  isSome_eq := hsome
  wasReader_eq := hread
  filled := by
    intro hfilled hnone hnil
    rw [hcontent.symm.trans hnil, List.length_nil] at hle
    have hnone' : b.bufferWriter = none := by
      rw [← Option.not_isSome_iff_eq_none, ← hsome]
      simpa using hnone
    exact hfilled hnone' (List.eq_nil_of_length_eq_zero (Nat.le_zero.mp hle))

/-- `append` never fails. -/
theorem append_spec (b : BufferBuilder) (slice : List UInt8) : ∃ b', b.append slice = .ok b' ∧
    b.Becomes (b.content ++ slice) b' ∧ (b'.Sealed ↔ b.Sealed) := by
  by_cases hinplace : b.toAppend = [] ∧ slice.length ≤ prepareAppendTo b.bufferWriter
  · obtain ⟨hnil, hroom⟩ := hinplace
    obtain ⟨writer, hconfirm, hbytes, hsome, hread, -⟩ := confirmAppendTo_spec hroom
    refine ⟨{ b with bufferWriter := writer }, ?_, .inplace ?_ hsome hread (by simp), ?_⟩
    · simp [append, appendInplace, hnil, Nat.not_lt.mpr hroom, hconfirm]
    · simp only [BufferBuilder.content_eq, hbytes, hnil, List.flatten_nil, List.append_nil,
        List.append_assoc]
    · simp only [Sealed, BufferBuilder.wasReader, hread]
  · have hcontent : (b.appendSlow slice).content = b.content ++ slice := by
      simp only [BufferBuilder.content_eq, appendSlow, List.flatten_append, List.flatten_singleton,
        List.append_assoc]
    refine ⟨b.appendSlow slice, ?_, ⟨hcontent, rfl, rfl, fun hfilled hnone hnil ↦ ?_⟩, Iff.rfl⟩
    · have hslow : b.appendInplace slice = .ok (false, b) := by
        by_cases hnil : b.toAppend = []
        · have hlt := Nat.not_le.mp fun hle ↦ hinplace ⟨hnil, hle⟩
          simp [appendInplace, hnil, hlt]
        · simp [appendInplace, hnil]
      simp [append, hslow]
    · rw [hcontent] at hnil
      obtain ⟨hb, rfl⟩ := List.append_eq_nil_iff.mp hnil
      exact absurd ⟨(hfilled hnone hb).1, Nat.zero_le _⟩ hinplace

/-- A slice is kept in front of the buffer. -/
theorem prependSlow_spec {b : BufferBuilder} {slice : List UInt8}
    (hslow : b.prependInplace slice = .ok (false, b)) (hslice : b.toPrepend = [] → slice ≠ []) :
    ∃ b', b.prepend slice = .ok b' ∧ b.Becomes (slice ++ b.content) b' ∧ ¬b'.Sealed := by
  have hcontent : (b.prependSlow slice).content = slice ++ b.content := by
    simp only [BufferBuilder.content_eq, prependSlow, List.reverse_append, List.reverse_singleton,
      List.flatten_append, List.flatten_singleton, List.append_assoc]
  refine ⟨b.prependSlow slice, by simp [prepend, hslow],
    ⟨hcontent, rfl, rfl, fun hfilled hnone hnil ↦ ?_⟩, fun hsealed ↦ ?_⟩
  · rw [hcontent] at hnil
    obtain ⟨rfl, hb⟩ := List.append_eq_nil_iff.mp hnil
    exact absurd rfl (hslice (hfilled hnone hb).2)
  · simp [Sealed, prependSlow] at hsealed

/-- `prepend` fails if nothing may be prepended. -/
theorem prepend_spec (b : BufferBuilder) (slice : List UInt8) :
    (¬b.Sealed ∧ ∃ b', b.prepend slice = .ok b' ∧ b.Becomes (slice ++ b.content) b' ∧
      ¬b'.Sealed) ∨
    (b.Sealed ∧ b.prepend slice = .error .check) := by
  by_cases hsealed : b.Sealed
  · obtain ⟨hnil, hread⟩ := hsealed
    obtain ⟨raw, hraw, hflag⟩ := (Option.any_eq_true _ _).mp hread
    exact .inr ⟨⟨hnil, hread⟩,
      by simp [prepend, prependInplace, hnil, hraw, preparePrependTo, hflag]⟩
  refine .inl ⟨hsealed, ?_⟩
  by_cases hnil : b.toPrepend = []
  swap
  · exact prependSlow_spec (by simp [prependInplace, hnil]) fun h ↦ absurd h hnil
  have hunread : b.wasReader = false := Bool.eq_false_iff.mpr fun hread ↦ hsealed ⟨hnil, hread⟩
  obtain ⟨dest, hprep, hconfirm⟩ := confirmPrependTo_spec hunread
  by_cases hroom : slice.length ≤ dest
  · obtain ⟨writer, hrun, hbytes, hsome, hread⟩ := hconfirm hroom
    refine ⟨{ b with bufferWriter := writer }, ?_,
      .inplace ?_ hsome (hread.trans hunread.symm) (by simp), fun hsealed ↦ ?_⟩
    · simp [prepend, prependInplace, hnil, hprep, Nat.not_lt.mpr hroom, hrun]
    · simp only [BufferBuilder.content_eq, hbytes, hnil, List.reverse_nil, List.flatten_nil,
        List.nil_append, List.append_assoc]
    · exact Bool.false_ne_true (hread.symm.trans hsealed.2)
  · have hlt := Nat.not_le.mp hroom
    refine prependSlow_spec (by simp [prependInplace, hnil, hprep, hlt]) fun _ hslice ↦ ?_
    rw [hslice] at hlt
    exact Nat.not_lt_zero _ hlt

theorem joined_append (content slice : List UInt8) (pieces : List Piece) :
    joined content (.append slice :: pieces) = joined (content ++ slice) pieces := by
  simp [joined, Piece.isPrepend, Piece.bytes]

theorem joined_prepend (content slice : List UInt8) (pieces : List Piece) :
    joined content (.prepend slice :: pieces) = joined (slice ++ content) pieces := by
  have hfilter : (Piece.prepend slice :: pieces).filter Piece.isPrepend =
      .prepend slice :: pieces.filter Piece.isPrepend := rfl
  have hother : (Piece.prepend slice :: pieces).filter (!·.isPrepend) =
      pieces.filter (!·.isPrepend) := rfl
  simp only [joined, hfilter, hother, List.reverse_cons, List.map_append, List.flatten_append,
    List.map_cons, List.map_nil, List.flatten_singleton, Piece.bytes, List.append_assoc]

/-- Pieces can be added exactly if none of them is prepended where nothing may be. -/
theorem addAll_spec (pieces : List Piece) : ∀ b : BufferBuilder,
    ((b.Sealed → ∀ p ∈ pieces, p.isPrepend = false) ∧
      ∃ b', b.addAll pieces = .ok b' ∧ b.Becomes (joined b.content pieces) b') ∨
    ((b.Sealed ∧ ∃ p ∈ pieces, p.isPrepend = true) ∧ b.addAll pieces = .error .check) := by
  induction pieces with
  | nil =>
    intro b
    refine .inl ⟨by simp, b, rfl, ⟨?_, rfl, rfl, id⟩⟩
    simp [joined]
  | cons p pieces ih =>
    intro b
    cases p with
    | append slice =>
      obtain ⟨b₁, happend, hbecomes, hsealed⟩ := b.append_spec slice
      have hrun : b.addAll (.append slice :: pieces) = b₁.addAll pieces := by
        simp only [addAll, List.foldlM_cons, add, happend, ok_bind]
      rw [hrun, joined_append, ← hsealed, ← hbecomes.content_eq]
      refine (ih b₁).imp ?_ ?_
      · rintro ⟨hpieces, b', hadd, hb'⟩
        refine ⟨by simpa [Piece.isPrepend] using hpieces, b', hadd, hb'.content_eq,
          hb'.isSome_eq.trans hbecomes.isSome_eq, hb'.wasReader_eq.trans hbecomes.wasReader_eq,
          hb'.filled ∘ hbecomes.filled⟩
      · exact fun h ↦ ⟨⟨h.1.1, by simpa [Piece.isPrepend] using h.1.2⟩, h.2⟩
    | prepend slice =>
      rcases b.prepend_spec slice with ⟨hsealed, b₁, hprepend, hbecomes, hsealed₁⟩ | ⟨hsealed, hrun⟩
      · have hrun : b.addAll (.prepend slice :: pieces) = b₁.addAll pieces := by
          simp only [addAll, List.foldlM_cons, add, hprepend, ok_bind]
        rcases ih b₁ with ⟨-, b', hadd, hb'⟩ | ⟨hfail, -⟩
        · rw [hrun, joined_prepend, ← hbecomes.content_eq]
          refine .inl ⟨fun h ↦ absurd h hsealed, b', hadd, hb'.content_eq,
            hb'.isSome_eq.trans hbecomes.isSome_eq, hb'.wasReader_eq.trans hbecomes.wasReader_eq,
            hb'.filled ∘ hbecomes.filled⟩
        · exact absurd hfail.1 hsealed₁
      · refine .inr ⟨⟨hsealed, .prepend slice, by simp, rfl⟩, ?_⟩
        simp only [addAll, List.foldlM_cons, add, hrun, error_bind]

/-! ## Extraction -/

/-- Slices are copied one behind another into a buffer with room for all of them. -/
theorem foldlM_confirmAppendTo (slices : List (List UInt8)) : ∀ writer : Option WriterRaw,
    slices.flatten.length ≤ prepareAppendTo writer → ∃ writer',
      slices.foldlM confirmAppendTo writer = .ok writer' ∧
      writerBytes writer' = writerBytes writer ++ slices.flatten ∧
      writer'.isSome = writer.isSome := by
  induction slices with
  | nil => exact fun writer _ ↦ ⟨writer, rfl, (List.append_nil _).symm, rfl⟩
  | cons slice slices ih =>
    intro writer hroom
    rw [List.flatten_cons, List.length_append] at hroom
    obtain ⟨writer₁, hconfirm, hbytes, hsome, -, hleft⟩ :=
      confirmAppendTo_spec (show slice.length ≤ prepareAppendTo writer by omega)
    obtain ⟨writer', hrun, hbytes', hsome'⟩ := ih writer₁ (by omega)
    refine ⟨writer', by rw [List.foldlM_cons, hconfirm, ok_bind, hrun], ?_, hsome'.trans hsome⟩
    rw [hbytes', hbytes, List.flatten_cons, List.append_assoc]

/-- What `extract` does. -/
theorem extract_spec (b : BufferBuilder) :
    (∃ raw, b.toAppend = [] ∧ b.toPrepend = [] ∧ b.bufferWriter = some raw ∧ b.extract =
      .ok (b.content, { b with bufferWriter := some { raw with wasReader := true } })) ∨
    (b.toAppend = [] ∧ b.toPrepend = [] ∧ b.bufferWriter = none ∧ b.extract = .error .noObject) ∨
    (¬(b.toAppend = [] ∧ b.toPrepend = []) ∧ b.extract = .ok (b.content, {})) := by
  by_cases hlists : b.toAppend = [] ∧ b.toPrepend = []
  · obtain ⟨hnil, hnil'⟩ := hlists
    rcases hwriter : b.bufferWriter with _ | raw
    · exact .inr (.inl ⟨hnil, hnil', rfl, by simp [extract, hnil, hnil', hwriter, asBufferSlice]⟩)
    · refine .inl ⟨raw, hnil, hnil', rfl, ?_⟩
      have hcontent : b.content = raw.asSlice := by
        simp [BufferBuilder.content_eq, hnil, hnil', hwriter, writerBytes]
      simp [extract, hnil, hnil', hwriter, asBufferSlice, hcontent]
  · refine .inr (.inr ⟨hlists, ?_⟩)
    have hroom : b.forEach.flatten.length ≤
        prepareAppendTo (some (WriterRaw.ofSlice [] 0 b.size)) := by
      have hle := le_roundUp (if b.size < 512 then 512 else b.size)
      have hroom : (WriterRaw.ofSlice [] 0 b.size).dataSize = roundUp
          (if b.size < 512 then 512 else b.size) := by
        simp only [WriterRaw.ofSlice, List.length_nil, Nat.zero_add]
      have hdata : (WriterRaw.ofSlice [] 0 b.size).data = [] := rfl
      rw [prepareAppendTo, hroom, hdata, List.length_nil, Nat.sub_zero]
      rw [size_eq] at hle ⊢
      refine le_trans ?_ hle
      show b.content.length ≤ _
      split_ifs with hsmall
      · exact hsmall.le
      · exact le_refl _
    obtain ⟨writer, hrun, hbytes, hsome⟩ := foldlM_confirmAppendTo b.forEach _ hroom
    obtain ⟨raw, rfl⟩ := Option.isSome_iff_exists.mp hsome
    have hcontent : raw.asSlice = b.content := hbytes
    simp [extract, hlists, hrun, asBufferSlice, hcontent]

/-- Bytes can be extracted exactly if there is a buffer or there are bytes. -/
theorem extract_iff (hfilled : b.Filled) :
    (∃ b', b.extract = .ok (b.content, b')) ↔ b.bufferWriter.isSome ∨ b.content ≠ [] := by
  rcases b.extract_spec with ⟨raw, -, -, hsome, hrun⟩ | ⟨hnil, hnil', hnone, hrun⟩ | ⟨hlists, hrun⟩
  · exact iff_of_true ⟨_, hrun⟩ (.inl (by rw [hsome]; rfl))
  · have hcontent : b.content = [] := by
      simp [BufferBuilder.content_eq, hnil, hnil', hnone, writerBytes]
    refine iff_of_false ?_ ?_
    · rintro ⟨b', hok⟩
      cases hrun.symm.trans hok
    · simp [hnone, hcontent]
  · refine iff_of_true ⟨_, hrun⟩ ?_
    rcases hwriter : b.bufferWriter with _ | raw
    · exact .inr fun hnil ↦ hlists (hfilled hwriter hnil)
    · exact .inl rfl

/-- After pieces are added to a builder, it shows and gives the bytes of all of them around those
that were there. -/
def Shows (b : BufferBuilder) (pieces : List Piece) : Prop :=
  ∃ b', b.addAll pieces = .ok b' ∧ b'.forEach.flatten = joined b.content pieces ∧
    b'.size = (joined b.content pieces).length ∧
    ∃ b'', b'.extract = .ok (joined b.content pieces, b'')

theorem joined_eq_nil : joined content pieces = [] ↔
    content = [] ∧ ∀ p ∈ pieces, p.bytes = [] := by
  constructor
  · intro hnil
    simp only [joined, List.append_eq_nil_iff, List.flatten_eq_nil_iff, List.mem_map,
      List.mem_reverse, List.mem_filter] at hnil
    obtain ⟨⟨hprepend, hcontent⟩, happend⟩ := hnil
    refine ⟨hcontent, fun p hp ↦ ?_⟩
    cases hp' : p.isPrepend with
    | false => exact happend p.bytes ⟨p, ⟨hp, by simp [hp']⟩, rfl⟩
    | true => exact hprepend p.bytes ⟨p, ⟨hp, hp'⟩, rfl⟩
  · rintro ⟨rfl, hpieces⟩
    simp only [joined, List.append_eq_nil_iff, List.flatten_eq_nil_iff, List.mem_map,
      List.mem_reverse, List.mem_filter]
    refine ⟨⟨?_, trivial⟩, ?_⟩
    all_goals
      rintro _ ⟨p, hp, rfl⟩
      exact hpieces p hp.1

theorem shows_spec (hfilled : b.Filled) (pieces : List Piece) : b.Shows pieces ↔
    (b.bufferWriter.isSome ∨ joined b.content pieces ≠ []) ∧
      (b.Sealed → ∀ p ∈ pieces, p.isPrepend = false) := by
  rcases addAll_spec pieces b with ⟨hpieces, b', hadd, hb'⟩ | ⟨⟨hsealed, p, hp, hprepend⟩, hadd⟩
  · have hextract := extract_iff (hb'.filled hfilled)
    rw [hb'.isSome_eq, hb'.content_eq] at hextract
    rw [← hextract]
    constructor
    · rintro ⟨b₁, hrun, -, -, hout⟩
      cases hadd.symm.trans hrun
      exact ⟨hout, hpieces⟩
    · rintro ⟨hout, -⟩
      exact ⟨b', hadd, hb'.content_eq, by rw [size_eq, hb'.content_eq], hout⟩
  · refine iff_of_false ?_ fun h ↦ ?_
    · rintro ⟨b₁, hrun, -⟩
      cases hadd.symm.trans hrun
    · exact Bool.false_ne_true ((h.2 hsealed p hp).symm.trans hprepend)

/-- The builder without a buffer. -/
theorem shows_default (pieces : List Piece) : Shows {} pieces ↔ ∃ p ∈ pieces, p.bytes ≠ [] := by
  have hcontent : BufferBuilder.content {} = [] := rfl
  have hunsealed : ¬Sealed {} := fun h ↦ Bool.false_ne_true h.2
  rw [shows_spec (fun _ _ ↦ ⟨rfl, rfl⟩), hcontent, ne_eq, joined_eq_nil]
  simp [hunsealed]

/-- A new builder shows and gives exactly the bytes of all pieces around the initial ones, if there
is a buffer or some piece is not empty, and nothing is prepended to a buffer that has a reader. -/
theorem shows_iff (writer : Option WriterRaw) (pieces : List Piece) :
    Shows { bufferWriter := writer } pieces ↔
      (writer.isSome ∨ ∃ p ∈ pieces, p.bytes ≠ []) ∧
      (writer.any (·.wasReader) → ∀ p ∈ pieces, p.isPrepend = false) := by
  cases writer with
  | none => simpa using shows_default pieces
  | some raw =>
    have hsealed : Sealed { bufferWriter := some raw } ↔ (some raw).any (·.wasReader) :=
      ⟨fun h ↦ h.2, fun h ↦ ⟨rfl, h⟩⟩
    rw [shows_spec (fun _ _ ↦ ⟨rfl, rfl⟩), hsealed]
    exact and_congr_left fun _ ↦ iff_of_true (.inl rfl) (.inl rfl)

/-- A new builder without a buffer cannot be extracted. -/
theorem shows_fails : ¬Shows {} [] := by
  rintro ⟨b', hadd, -, -, b'', hextract⟩
  cases hadd
  cases hextract

/-- After an extraction the builder is empty, and shows and gives exactly the bytes of the pieces
that are added after it. -/
def ExtractsAfresh (b : BufferBuilder) (pieces : List Piece) : Prop :=
  ∃ b₁, b.extract = .ok (b.content, b₁) ∧ b₁.size = 0 ∧ b₁.forEach = [] ∧ b₁.Shows pieces

/-- A builder is as new after an extraction if slices were kept in its lists, as long as something
is added before the next one; otherwise it must have an empty buffer, to which nothing may be
prepended any more. -/
theorem extractsAfresh_iff (b : BufferBuilder) (pieces : List Piece) : b.ExtractsAfresh pieces ↔
    ((b.toAppend ≠ [] ∨ b.toPrepend ≠ []) ∧ ∃ p ∈ pieces, p.bytes ≠ []) ∨
    (b.toAppend = [] ∧ b.toPrepend = [] ∧ ∃ raw, b.bufferWriter = some raw ∧ raw.asSlice = [] ∧
      ∀ p ∈ pieces, p.isPrepend = false) := by
  rcases b.extract_spec with ⟨raw, hnil, hnil', hsome, hrun⟩ | ⟨hnil, hnil', hnone, hrun⟩ |
    ⟨hlists, hrun⟩
  · -- the builder keeps the buffer, which now has a reader
    have hforEach : forEach { b with bufferWriter := some { raw with wasReader := true } } =
        if raw.asSlice = [] then [] else [raw.asSlice] := by
      simp only [forEach, hnil, hnil', List.reverse_nil, List.nil_append, List.append_nil, written]
      rfl
    have hfilled : Filled { b with bufferWriter := some { raw with wasReader := true } } :=
      fun _ _ ↦ ⟨hnil, hnil'⟩
    constructor
    · rintro ⟨b₁, hextract, -, hempty, hshows⟩
      cases hrun.symm.trans hextract
      refine .inr ⟨hnil, hnil', raw, hsome, ?_, ?_⟩
      · by_contra hslice
        rw [hforEach, if_neg hslice] at hempty
        cases hempty
      · exact ((shows_spec hfilled pieces).mp hshows).2 ⟨hnil', rfl⟩
    · rintro (⟨hlists, -⟩ | ⟨-, -, raw', hraw', hslice, hpieces⟩)
      · exact absurd (hlists.resolve_left (absurd hnil)) (absurd hnil')
      · cases hsome.symm.trans hraw'
        rw [if_pos hslice] at hforEach
        refine ⟨_, hrun, by rw [size, hforEach]; rfl, hforEach, ?_⟩
        exact (shows_spec hfilled pieces).mpr ⟨.inl rfl, fun _ ↦ hpieces⟩
  · refine iff_of_false ?_ ?_
    · rintro ⟨b₁, hextract, -⟩
      cases hrun.symm.trans hextract
    · simp [hnil, hnil', hnone]
  · -- the builder is a new one
    constructor
    · rintro ⟨b₁, hextract, -, -, hshows⟩
      cases hrun.symm.trans hextract
      exact .inl ⟨not_and_or.mp hlists, (shows_default pieces).mp hshows⟩
    · rintro (⟨-, hpieces⟩ | ⟨hnil, hnil', -⟩)
      · exact ⟨{}, hrun, rfl, rfl, (shows_default pieces).mpr hpieces⟩
      · exact absurd ⟨hnil, hnil'⟩ hlists

/-- A builder that was built around one byte still has it after `extract`. -/
theorem extractsAfresh_fails :
    ¬ExtractsAfresh { bufferWriter := some (WriterRaw.ofSlice [97] 0 0) } [] := by
  rintro ⟨b₁, hextract, hsize, -⟩
  cases hextract
  revert hsize
  decide +kernel

end BufferBuilder

end PxcCore.Buffer
