import Mathlib
import PxcCore.Utils.ToInteger

/-!
# String builders

`StringBuilder`: text that is written into a buffer of fixed size, or into one that grows.  The last
bytes of the buffer are a reserve: most operators check for a single byte before it, and write more.
-/

namespace PxcCore

open Lib
open Json (chr)
open ToInteger (IntegerType printInteger decimalText)

/-- The members of `StringBuilder`.  `buffer` has the bytes from `begin_ptr_` up to
`end_ptr_ + RESERVED_SIZE`, and `current` is `current_ptr_ - begin_ptr_`. -/
structure StringBuilder where
  buffer : List UInt8
  current : ℕ
  errorFlag : Bool := false
  useBuffer : Bool
deriving DecidableEq

namespace StringBuilder

/-- A failed `CHECK`, or an access outside of the buffer. -/
inductive Fault where
  | check
  | outside
deriving DecidableEq

/-! ## The functions -/

/-- `RESERVED_SIZE` -/
def reservedSize : ℕ := 30

/-- `std::numeric_limits<size_t>::max()` -/
def maxSize : ℕ := 2 ^ 64 - 1

/-- `end_ptr_ - begin_ptr_` -/
def endPtr (sb : StringBuilder) : ℕ := sb.buffer.length - reservedSize

/-- The constructor. -/
def new (slice : List UInt8) (useBuffer : Bool) : StringBuilder :=
  if slice.length ≤ reservedSize then
    { buffer := List.replicate (reservedSize + 100) 0, current := 0, useBuffer }
  else { buffer := slice, current := 0, useBuffer }

/-- Writing bytes at `current_ptr_`. -/
def write (sb : StringBuilder) (bytes : List UInt8) : Except Fault StringBuilder :=
  if sb.current + bytes.length ≤ sb.buffer.length then
    return { sb with
      buffer := sb.buffer.take sb.current ++ bytes ++ sb.buffer.drop (sb.current + bytes.length) }
  else throw .outside

/-- Writing bytes at `current_ptr_`, which is behind them then. -/
def put (sb : StringBuilder) (bytes : List UInt8) : Except Fault StringBuilder := do
  let sb ← sb.write bytes
  return { sb with current := sb.current + bytes.length }

/-- `clear` -/
def clear (sb : StringBuilder) : StringBuilder := { sb with current := 0, errorFlag := false }

/-- `pop_back` -/
def popBack (sb : StringBuilder) : Except Fault StringBuilder :=
  if sb.current > 0 then return { sb with current := sb.current - 1 } else throw .check

/-- `as_cslice`, which stops the program when there is no room for its last byte. -/
def asCslice (sb : StringBuilder) : Except Fault (List UInt8) := do
  if sb.current ≥ sb.endPtr + reservedSize then throw .check
  let sb ← sb.write [0]
  return sb.buffer.take sb.current

/-- `on_error` -/
def onError (sb : StringBuilder) : StringBuilder := { sb with errorFlag := true }

/-- The size of a new buffer, without its reserve. -/
def newBufferSize (oldBufferSize needDataSize : ℕ) : ℕ :=
  let newBufferSize := (oldBufferSize + 1) * 2
  let newBufferSize := if newBufferSize < needDataSize then needDataSize else newBufferSize
  if newBufferSize < 100 then 100 else newBufferSize

/-- `reserve_inner` -/
def reserveInner (sb : StringBuilder) (size : ℕ) : Except Fault (Bool × StringBuilder) :=
  let oldDataSize := sb.current
  let oldBufferSize := sb.endPtr
  if !sb.useBuffer then return (false, sb)
  else if size ≥ maxSize - reservedSize - oldDataSize - 1 then return (false, sb)
  else if oldBufferSize ≥ (maxSize - reservedSize) / 2 - 2 then return (false, sb)
  else do
    let newBufferSize := newBufferSize oldBufferSize (oldDataSize + size)
    let newBuffer := List.replicate (newBufferSize + reservedSize) 0
    let new ← { sb with buffer := newBuffer, current := 0 }.put (sb.buffer.take oldDataSize)
    if ¬new.endPtr > new.current then throw .check
    if ¬new.endPtr - new.current ≥ size then throw .check
    return (true, new)

/-- `reserve` without an argument. -/
def reserve (sb : StringBuilder) : Except Fault (Bool × StringBuilder) :=
  if sb.endPtr > sb.current then return (true, sb) else sb.reserveInner reservedSize

/-- `reserve` with a size. -/
def reserveSize (sb : StringBuilder) (size : ℕ) : Except Fault (Bool × StringBuilder) :=
  if sb.endPtr > sb.current ∧ sb.endPtr - sb.current ≥ size then return (true, sb)
  else sb.reserveInner size

/-- What `operator<<` for a slice and `append_char` have in common: as much of the text is written
as there is room for. -/
def appendText (sb : StringBuilder) (text : List UInt8) : Except Fault StringBuilder := do
  let (reserved, sb) ← sb.reserveSize text.length
  if !reserved then
    if sb.endPtr < sb.current then return sb.onError
    else
      let availableSize := sb.endPtr + reservedSize - 1 - sb.current
      if text.length > availableSize then sb.onError.put (text.take availableSize)
      else sb.put text
  else sb.put text

/-- `operator<<(Slice)` -/
def appendSlice (sb : StringBuilder) (slice : List UInt8) : Except Fault StringBuilder :=
  sb.appendText slice

/-- `append_char` -/
def appendChar (sb : StringBuilder) (count : ℕ) (c : UInt8) : Except Fault StringBuilder :=
  sb.appendText (List.replicate count c)

/-- What the operators for characters and integers have in common. -/
def appendReserved (sb : StringBuilder) (text : Option (List UInt8)) :
    Except Fault StringBuilder := do
  let (reserved, sb) ← sb.reserve
  if !reserved then return sb.onError
  else
    match text with
    | some text => sb.put text
    | none => throw .check

/-- `operator<<(char)` -/
def appendCharacter (sb : StringBuilder) (c : UInt8) : Except Fault StringBuilder :=
  sb.appendReserved (some [c])

/-- `operator<<` for the integer types. -/
def appendInteger (sb : StringBuilder) (T : IntegerType) (x : ℤ) : Except Fault StringBuilder :=
  sb.appendReserved (printInteger T x)

/-- `push_back` -/
def pushBack (sb : StringBuilder) (c : UInt8) : Except Fault StringBuilder :=
  if sb.endPtr ≤ sb.current then do
    let (reserved, sb) ← sb.reserveInner reservedSize
    if !reserved then return sb.onError
    else sb.put [c]
  else sb.put [c]

/-- The argument of `reserve` for a double: an `int` that becomes a `size_t`. -/
def doubleSize (precision : ℤ) : ℕ := ((308 + precision + 4) % 2 ^ 64).toNat

/-- `operator<<(FixedDouble)`, for the text that the string stream has. -/
def appendFixedDouble (sb : StringBuilder) (text : List UInt8) (precision : ℤ) :
    Except Fault StringBuilder := do
  let (reserved, sb) ← sb.reserveSize (doubleSize precision)
  if !reserved then return sb.onError
  else
    -- `narrow_cast<int>`
    if text.length ≥ 2 ^ 31 then throw .check
    else
      let left := sb.endPtr + reservedSize - sb.current
      if text.length ≥ left then sb.onError.put (text.take (if left ≠ 0 then left - 1 else 0))
      else sb.put text

/-- `operator<<(const void *)`, for the text that `snprintf` prints: it writes a zero behind it. -/
def appendPointer (sb : StringBuilder) (text : List UInt8) : Except Fault StringBuilder := do
  let (reserved, sb) ← sb.reserve
  if !reserved then return sb.onError
  else
    let sb ← sb.write (text.take (reservedSize - 1) ++ [0])
    return { sb with current := sb.current + text.length }

/-- The operations on a builder. -/
inductive Op where
  | slice (s : List UInt8)
  | char (c : UInt8)
  | bool (b : Bool)
  | integer (T : IntegerType) (x : ℤ)
  | fixedDouble (text : List UInt8) (precision : ℤ)
  | pointer (text : List UInt8)
  | appendChar (count : ℕ) (c : UInt8)
  | pushBack (c : UInt8)
  | popBack
  | clear

/-- An operation. -/
def step (sb : StringBuilder) : Op → Except Fault StringBuilder
  | .slice s => sb.appendSlice s
  | .char c => sb.appendCharacter c
  | .bool b => sb.appendSlice ((if b then "true" else "false").toList.map chr)
  | .integer T x => sb.appendInteger T x
  | .fixedDouble text precision => sb.appendFixedDouble text precision
  | .pointer text => sb.appendPointer text
  | .appendChar count c => sb.appendChar count c
  | .pushBack c => sb.pushBack c
  | .popBack => sb.popBack
  | .clear => return sb.clear

/-- A sequence of operations. -/
def run (sb : StringBuilder) (ops : List Op) : Except Fault StringBuilder := ops.foldlM step sb

/-! ## What the operations are for -/

/-- The text after an operation. -/
def Op.apply (text : List UInt8) : Op → List UInt8
  | .slice s => text ++ s
  | .char c => text ++ [c]
  | .bool b => text ++ (if b then "true" else "false").toList.map chr
  | .integer _ x => text ++ decimalText x
  | .fixedDouble printed _ => text ++ printed
  | .pointer printed => text ++ printed
  | .appendChar count c => text ++ List.replicate count c
  | .pushBack c => text ++ [c]
  | .popBack => text.dropLast
  | .clear => []

/-- The bytes that an operation asks for. -/
def Op.size : Op → ℕ
  | .slice s => s.length
  | .char _ => reservedSize
  | .bool b => ((if b then "true" else "false").toList.map chr).length
  | .integer _ _ => reservedSize
  | .fixedDouble _ precision => doubleSize precision
  | .pointer _ => reservedSize
  | .appendChar count _ => count
  | .pushBack _ => reservedSize
  | .popBack => 0
  | .clear => 0

/-- Values of the integer types, and texts of doubles and pointers that are no longer than the code
takes them to be. -/
def Op.Bounded : Op → Prop
  | .integer T x => T.width ≤ 64 ∧ T.InRange x
  | .fixedDouble text precision => text.length ≤ doubleSize precision ∧ text.length < 2 ^ 31
  | .pointer text => text.length < reservedSize
  | _ => True

/-- The length of what an operation prints. -/
def Op.length (op : Op) : ℕ := (op.apply []).length

/-- The sizes below which a buffer can be allocated. -/
def sizeLimit : ℕ := (maxSize - reservedSize) / 2 - 2

/-- The total size is below the limit at every operation, behind `spent` bytes that were printed. -/
def Allocatable : ℕ → List Op → Prop
  | _, [] => True
  | spent, op :: ops => spent + op.size < sizeLimit ∧ Allocatable (spent + op.length) ops

/-! ## Writing -/

/-- The text of a builder. -/
def content (sb : StringBuilder) : List UInt8 := sb.buffer.take sb.current

/-- The end of the text is in the buffer, which is longer than its reserve. -/
structure Fits (sb : StringBuilder) : Prop where
  long : reservedSize < sb.buffer.length
  current_lt : sb.current < sb.buffer.length

variable {sb sb' : StringBuilder} {text : List UInt8} {size : ℕ}

theorem fits_new (slice : List UInt8) (useBuffer : Bool) : (new slice useBuffer).Fits := by
  rw [new]
  split_ifs with h
  · constructor <;> simp [reservedSize]
  · exact ⟨not_le.mp h, (Nat.zero_le _).trans_lt (not_le.mp h)⟩

theorem Fits.length_eq (h : sb.Fits) : sb.buffer.length = sb.endPtr + reservedSize :=
  (Nat.sub_add_cancel h.long.le).symm

theorem Fits.onError (h : sb.Fits) : sb.onError.Fits := ⟨h.long, h.current_lt⟩

theorem Fits.length_content (h : sb.Fits) : sb.content.length = sb.current := by
  rw [content, List.length_take, Nat.min_eq_left h.current_lt.le]

/-- `sb'` is `sb` with some more text. -/
structure Wrote (sb : StringBuilder) (text : List UInt8) (sb' : StringBuilder) : Prop where
  fits : sb'.Fits
  content : sb'.content = sb.content ++ text
  current : sb'.current = sb.current + text.length
  errorFlag : sb'.errorFlag = sb.errorFlag
  useBuffer : sb'.useBuffer = sb.useBuffer

/-- Text that ends before the end of the buffer is written into it, with what is behind it. -/
theorem write_spec (h : sb.Fits) (rest : List UInt8)
    (hroom : sb.current + (text ++ rest).length ≤ sb.buffer.length)
    (hlt : sb.current + text.length < sb.buffer.length) :
    ∃ sb', sb.write (text ++ rest) = .ok sb' ∧
      sb.Wrote text { sb' with current := sb'.current + text.length } := by
  refine ⟨_, if_pos hroom, ⟨?_, ?_⟩, ?_, rfl, rfl, rfl⟩
  · have := h.long
    simp only [List.length_append, List.length_take, List.length_drop] at hroom ⊢
    omega
  · simp only [List.length_append, List.length_take, List.length_drop] at hroom ⊢
    omega
  · have htake : (sb.buffer.take sb.current).length = sb.current := h.length_content
    simp only [StringBuilder.content, List.append_assoc]
    rw [List.take_append, htake, Nat.add_sub_cancel_left, List.take_take,
      Nat.min_eq_right (Nat.le_add_right _ _), List.take_append_of_le_length le_rfl,
      List.take_length]

theorem put_spec (h : sb.Fits) (hlt : sb.current + text.length < sb.buffer.length) :
    ∃ sb', sb.put text = .ok sb' ∧ sb.Wrote text sb' := by
  obtain ⟨sb', hwrite, hwrote⟩ := write_spec h [] (by simpa using hlt.le) hlt
  rw [List.append_nil] at hwrite
  exact ⟨_, by rw [put, hwrite]; rfl, hwrote⟩

theorem length_of_put (h : sb.put text = .ok sb') : sb'.buffer.length = sb.buffer.length := by
  obtain ⟨written, hwrite, hret⟩ := bind_eq_ok.1 h
  obtain rfl := Except.ok.inj hret
  rw [write] at hwrite
  split_ifs at hwrite with hroom
  obtain rfl := Except.ok.inj hwrite
  simp only [List.length_append, List.length_take, List.length_drop]
  omega

/-- The text is copied into a new buffer that is long enough. -/
theorem copy_spec (h : sb.Fits) {n : ℕ} (hlong : reservedSize < n) (hlt : sb.current < n) :
    ∃ sb', { sb with buffer := List.replicate n 0, current := 0 }.put
        (sb.buffer.take sb.current) = .ok sb' ∧
      sb.Wrote [] sb' ∧ sb'.buffer.length = n := by
  have hlength := h.length_content
  rw [content] at hlength
  have hfits : { sb with buffer := List.replicate n 0, current := 0 }.Fits :=
    ⟨by simpa using hlong, by simpa using (Nat.zero_le _).trans_lt hlong⟩
  have hroom : 0 + (sb.buffer.take sb.current).length < (List.replicate n (0 : UInt8)).length := by
    simpa [hlength] using hlt
  obtain ⟨sb', hput, hwrote⟩ := put_spec hfits hroom
  refine ⟨sb', hput, ⟨hwrote.fits, ?_, ?_, hwrote.errorFlag, hwrote.useBuffer⟩, ?_⟩
  · rw [hwrote.content, List.append_nil]
    rfl
  · rw [hwrote.current, hlength]
    exact Nat.zero_add _
  · rw [length_of_put hput, List.length_replicate]

/-- `as_cslice` gives the text. -/
theorem Fits.asCslice (h : sb.Fits) : sb.asCslice = .ok sb.content := by
  have hlt := h.current_lt
  have hroom : sb.current + (([] : List UInt8) ++ [0]).length ≤ sb.buffer.length := hlt
  obtain ⟨sb', hwrite, hwrote⟩ := write_spec h [0] hroom hlt
  rw [List.nil_append] at hwrite
  have hcontent := hwrote.content
  rw [List.append_nil] at hcontent
  rw [h.length_eq] at hlt
  rw [StringBuilder.asCslice, if_neg (not_le.mpr hlt)]
  simp only [hwrite, pure_eq_ok, ok_bind]
  exact congrArg Except.ok hcontent

/-! ## Reserving -/

/-- `sb'` is `sb`, with room for some more text if this is possible.  Without `use_buffer` there may
be no room. -/
structure Reserved (sb : StringBuilder) (size : ℕ) (reserved : Bool) (sb' : StringBuilder) :
    Prop where
  wrote : sb.Wrote [] sb'
  room : reserved = true → sb'.current < sb'.endPtr ∧ sb'.current + size ≤ sb'.endPtr
  full : reserved = false → sb' = sb ∧ sb.useBuffer = false

theorem Fits.wrote_nil (h : sb.Fits) : sb.Wrote [] sb :=
  ⟨h, (List.append_nil _).symm, rfl, rfl, rfl⟩

/-- The new buffer has room for what is needed, and it is more than twice as long. -/
theorem newBufferSize_spec (oldBufferSize needDataSize : ℕ) :
    needDataSize ≤ newBufferSize oldBufferSize needDataSize ∧
      (oldBufferSize + 1) * 2 ≤ newBufferSize oldBufferSize needDataSize ∧
      100 ≤ newBufferSize oldBufferSize needDataSize := by
  simp only [newBufferSize]
  split_ifs <;> omega

theorem reserveInner_spec (h : sb.Fits) (hfull : sb.endPtr ≤ sb.current + size)
    (hlimit : sb.useBuffer = true → sb.current + size < sizeLimit) :
    ∃ reserved sb', sb.reserveInner size = .ok (reserved, sb') ∧ sb.Reserved size reserved sb' := by
  rw [reserveInner]
  cases huse : sb.useBuffer with
  | false => exact ⟨false, sb, rfl, h.wrote_nil, by simp, fun _ ↦ ⟨rfl, huse⟩⟩
  | true =>
    have hlimit := hlimit huse
    have hcurrent := h.current_lt
    rw [h.length_eq] at hcurrent
    have hsize : ¬size ≥ maxSize - reservedSize - sb.current - 1 := by
      rw [sizeLimit] at hlimit
      omega
    have hbuffer : ¬sb.endPtr ≥ (maxSize - reservedSize) / 2 - 2 := by
      rw [sizeLimit] at hlimit
      omega
    obtain ⟨hneed, hgrown, hhundred⟩ := newBufferSize_spec sb.endPtr (sb.current + size)
    -- the new buffer is longer than the old one with its reserve
    obtain ⟨new, hput, hwrote, hlength⟩ := copy_spec h
      (n := newBufferSize sb.endPtr (sb.current + size) + reservedSize) (by omega) (by omega)
    have hnew : new.endPtr = newBufferSize sb.endPtr (sb.current + size) := by
      rw [endPtr, hlength, Nat.add_sub_cancel]
    have hlt : new.current < new.endPtr := by
      rw [hnew, hwrote.current]
      simp only [reservedSize, List.length_nil] at hcurrent ⊢
      omega
    have hroom : new.current + size ≤ new.endPtr := by
      rw [hnew, hwrote.current]
      exact hneed
    refine ⟨true, new, ?_, hwrote, fun _ ↦ ⟨hlt, hroom⟩, by simp⟩
    have hcheck : new.endPtr - new.current ≥ size := by omega
    simp [hsize, hbuffer, huse ▸ hput, not_le.mpr hlt, not_lt.mpr hcheck]

theorem reserve_spec (h : sb.Fits)
    (hlimit : sb.useBuffer = true → sb.current + reservedSize < sizeLimit) :
    ∃ reserved sb', sb.reserve = .ok (reserved, sb') ∧ sb.Reserved 0 reserved sb' := by
  rw [reserve]
  split_ifs with hroom
  · exact ⟨true, sb, rfl, h.wrote_nil, fun _ ↦ ⟨hroom, hroom.le⟩, by simp⟩
  · obtain ⟨reserved, sb', hinner, hreserved⟩ := reserveInner_spec h (by omega) hlimit
    refine ⟨reserved, sb', hinner, hreserved.wrote, fun hr ↦ ?_, hreserved.full⟩
    exact ⟨(hreserved.room hr).1, (hreserved.room hr).1.le⟩

theorem reserveSize_spec (h : sb.Fits)
    (hlimit : sb.useBuffer = true → sb.current + size < sizeLimit) :
    ∃ reserved sb', sb.reserveSize size = .ok (reserved, sb') ∧ sb.Reserved size reserved sb' := by
  rw [reserveSize]
  split_ifs with hroom
  · exact ⟨true, sb, rfl, h.wrote_nil, fun _ ↦ ⟨hroom.1, by omega⟩, by simp⟩
  · exact reserveInner_spec h (by omega) hlimit

/-! ## The operations -/

/-- The builder `sb` has got the text `text`, unless it has reported an error.  At most `spent`
bytes have been printed. -/
structure Tracks (sb : StringBuilder) (text : List UInt8) (spent : ℕ) : Prop where
  fits : sb.Fits
  content : sb.errorFlag = false → sb.content = text
  errorFlag : sb.useBuffer = true → sb.errorFlag = false
  current_le : sb.current ≤ spent

/-- What an operation may do: it keeps to the buffer, and the text or the error is right. -/
def Adds (sb : StringBuilder) (text : List UInt8) (spent : ℕ) (r : Except Fault StringBuilder) :
    Prop :=
  ∃ sb', r = .ok sb' ∧ sb'.useBuffer = sb.useBuffer ∧ sb'.Tracks text spent

variable {printed : List UInt8} {spent : ℕ}

theorem Tracks.wrote (h : sb.Tracks text spent) (hw : sb.Wrote printed sb') :
    sb'.Tracks (text ++ printed) (spent + printed.length) where
  fits := hw.fits
  content herror := by rw [hw.content, h.content (hw.errorFlag ▸ herror)]
  errorFlag huse := by
    rw [hw.errorFlag]
    exact h.errorFlag (hw.useBuffer ▸ huse)
  current_le := by
    rw [hw.current]
    exact Nat.add_le_add_right h.current_le _

/-- All of the printed text is written. -/
theorem Tracks.put (h : sb.Tracks text spent)
    (hlt : sb.current + printed.length < sb.buffer.length) :
    sb.Adds (text ++ printed) (spent + printed.length) (sb.put printed) := by
  obtain ⟨sb', hput, hwrote⟩ := put_spec h.fits hlt
  exact ⟨sb', hput, hwrote.useBuffer, h.wrote hwrote⟩

/-- Nothing is written, and the error is reported. -/
theorem Tracks.onError (h : sb.Tracks text spent) (huse : sb.useBuffer = false)
    (text' : List UInt8) (size : ℕ) :
    sb.Adds text' (spent + size) (.ok sb.onError) :=
  ⟨sb.onError, rfl, rfl, h.fits.onError, fun herror ↦ by simp [StringBuilder.onError] at herror,
    fun htrue ↦ absurd (huse.symm.trans htrue) Bool.false_ne_true,
    h.current_le.trans (Nat.le_add_right _ _)⟩

/-- A part of the text is written, and the error is reported. -/
theorem Tracks.truncate (h : sb.Tracks text spent) (huse : sb.useBuffer = false)
    (text' : List UInt8) {size : ℕ} (hle : printed.length ≤ size)
    (hlt : sb.current + printed.length < sb.buffer.length) :
    sb.Adds text' (spent + size) (sb.onError.put printed) := by
  obtain ⟨sb', hput, hwrote⟩ := put_spec h.fits.onError hlt
  refine ⟨sb', hput, hwrote.useBuffer, hwrote.fits, fun herror ↦ ?_, fun htrue ↦ ?_, ?_⟩
  · rw [hwrote.errorFlag] at herror
    simp [StringBuilder.onError] at herror
  · exact absurd ((hwrote.useBuffer.trans huse).symm.trans htrue) Bool.false_ne_true
  · rw [hwrote.current]
    exact Nat.add_le_add h.current_le hle

/-- An operation reserves first: it goes on with the room that it has asked for, or without any. -/
theorem Tracks.reserve (h : sb.Tracks text spent) {text' : List UInt8} {spent' : ℕ}
    {result : Except Fault (Bool × StringBuilder)}
    {k : Bool × StringBuilder → Except Fault StringBuilder}
    (hreserve : ∃ reserved sb', result = .ok (reserved, sb') ∧ sb.Reserved size reserved sb')
    (hroom : ∀ sb' : StringBuilder, sb'.Tracks text spent → sb'.current < sb'.endPtr →
      sb'.current + size ≤ sb'.endPtr → sb'.Adds text' spent' (k (true, sb')))
    (hfull : sb.useBuffer = false → sb.Adds text' spent' (k (false, sb))) :
    sb.Adds text' spent' (result >>= k) := by
  obtain ⟨reserved, sb', rfl, hr⟩ := hreserve
  rw [ok_bind]
  cases reserved with
  | true =>
    obtain ⟨hlt, hle⟩ := hr.room rfl
    obtain ⟨sb'', hok, huse, htracks⟩ :=
      hroom sb' (List.append_nil text ▸ h.wrote hr.wrote) hlt hle
    exact ⟨sb'', hok, huse.trans hr.wrote.useBuffer, htracks⟩
  | false =>
    obtain ⟨rfl, huse⟩ := hr.full rfl
    exact hfull huse

/-- The limit of the total size leaves room for this operation. -/
theorem Tracks.limit (h : sb.Tracks text spent)
    (hlimit : sb.useBuffer = true → spent + size < sizeLimit) :
    sb.useBuffer = true → sb.current + size < sizeLimit :=
  fun huse ↦ (Nat.add_le_add_right h.current_le size).trans_lt (hlimit huse)

theorem Tracks.appendText (h : sb.Tracks text spent)
    (hlimit : sb.useBuffer = true → spent + printed.length < sizeLimit) :
    sb.Adds (text ++ printed) (spent + printed.length) (sb.appendText printed) := by
  refine h.reserve (reserveSize_spec h.fits (h.limit hlimit)) (fun sb' h' _ hle ↦ ?_) fun huse ↦ ?_
  · have hlength := h'.fits.length_eq
    exact h'.put (by rw [hlength, reservedSize]; omega)
  · have hlength := h.fits.length_eq
    have hcurrent := h.fits.current_lt
    rw [hlength] at hcurrent
    simp only [Bool.not_false, if_true]
    split_ifs with hend hlarge
    · exact h.onError huse _ _
    · refine h.truncate huse _ (List.length_take_le' _ _) ?_
      rw [List.length_take, hlength]
      omega
    · exact h.put (by omega)

theorem Tracks.appendReserved (h : sb.Tracks text spent) (hprinted : printed.length < reservedSize)
    (hlimit : sb.useBuffer = true → spent + reservedSize < sizeLimit) :
    sb.Adds (text ++ printed) (spent + printed.length) (sb.appendReserved (some printed)) := by
  refine h.reserve (reserve_spec h.fits (h.limit hlimit)) (fun sb' h' hlt _ ↦ ?_)
    fun huse ↦ h.onError huse _ _
  have hlength := h'.fits.length_eq
  exact h'.put (by omega)

theorem Tracks.pushBack (h : sb.Tracks text spent) (c : UInt8)
    (hlimit : sb.useBuffer = true → spent + reservedSize < sizeLimit) :
    sb.Adds (text ++ [c]) (spent + 1) (sb.pushBack c) := by
  have hone : [c].length < reservedSize := by simp [reservedSize]
  rw [StringBuilder.pushBack]
  split_ifs with hfull
  · refine h.reserve (reserveInner_spec h.fits (by omega) (h.limit hlimit))
      (fun sb' h' hlt _ ↦ ?_) fun huse ↦ h.onError huse _ _
    have hlength := h'.fits.length_eq
    exact h'.put (by omega)
  · have hlength := h.fits.length_eq
    exact h.put (by omega)

theorem Tracks.appendFixedDouble (h : sb.Tracks text spent) {precision : ℤ}
    (hprinted : printed.length ≤ doubleSize precision) (hint : printed.length < 2 ^ 31)
    (hlimit : sb.useBuffer = true → spent + doubleSize precision < sizeLimit) :
    sb.Adds (text ++ printed) (spent + printed.length)
      (sb.appendFixedDouble printed precision) := by
  refine h.reserve (reserveSize_spec h.fits (h.limit hlimit)) (fun sb' h' _ hle ↦ ?_)
    fun huse ↦ h.onError huse _ _
  have hlength := h'.fits.length_eq
  have hleft : ¬printed.length ≥ sb'.endPtr + reservedSize - sb'.current := by
    rw [reservedSize]
    omega
  simp only [Bool.not_true, Bool.false_eq_true, if_false, if_neg (not_le.mpr hint), if_neg hleft]
  exact h'.put (by omega)

theorem Tracks.appendPointer (h : sb.Tracks text spent) (hprinted : printed.length < reservedSize)
    (hlimit : sb.useBuffer = true → spent + reservedSize < sizeLimit) :
    sb.Adds (text ++ printed) (spent + printed.length) (sb.appendPointer printed) := by
  refine h.reserve (reserve_spec h.fits (h.limit hlimit)) (fun sb' h' hlt _ ↦ ?_)
    fun huse ↦ h.onError huse _ _
  have hlength := h'.fits.length_eq
  have htake : printed.take (reservedSize - 1) = printed :=
    List.take_of_length_le (Nat.le_sub_one_of_lt hprinted)
  obtain ⟨sb'', hwrite, hwrote⟩ := write_spec h'.fits [0]
    (by rw [List.length_append, List.length_singleton]; omega)
    (show sb'.current + printed.length < sb'.buffer.length by omega)
  simp only [Bool.not_true, Bool.false_eq_true, if_false, htake, hwrite, ok_bind]
  exact ⟨_, rfl, hwrote.useBuffer, h'.wrote hwrote⟩

theorem Tracks.clear (h : sb.Tracks text spent) : sb.clear.Tracks [] spent where
  fits := ⟨h.fits.long, (Nat.zero_le _).trans_lt h.fits.current_lt⟩
  content _ := List.take_zero
  errorFlag _ := rfl
  current_le := Nat.zero_le _

theorem Tracks.popBack (h : sb.Tracks text spent) :
    sb.Adds text.dropLast spent sb.popBack ∨ sb.current = 0 ∧ sb.popBack = .error .check := by
  rw [StringBuilder.popBack]
  split_ifs with hpos
  · refine .inl ⟨_, rfl, rfl, ⟨h.fits.long, ?_⟩, fun herror ↦ ?_, h.errorFlag, ?_⟩
    · exact (Nat.sub_le _ _).trans_lt h.fits.current_lt
    · rw [← h.content herror, StringBuilder.content, StringBuilder.content,
        List.dropLast_take h.fits.current_lt]
    · exact (Nat.sub_le _ _).trans h.current_le
  · exact .inr ⟨Nat.eq_zero_of_not_pos hpos, rfl⟩

/-! ## Integers -/

theorem length_decimal_le {n : ℕ} (hn : n < 10 ^ 20) : (decimal n).length ≤ 20 := by
  rw [decimal]
  split_ifs with hzero
  · exact Nat.le_add_left 1 19
  · rw [List.length_reverse, List.length_map]
    exact Nat.digits_length_le_iff (by norm_num) _ |>.mpr hn

theorem natAbs_le_of_inRange {T : IntegerType} (hT : T.width ≤ 64) {x : ℤ} (hx : T.InRange x) :
    x.natAbs ≤ 2 ^ 64 := by
  obtain ⟨hmin, hmax⟩ := hx
  have hwidth : 2 ^ T.width ≤ 2 ^ 64 := Nat.pow_le_pow_right (by norm_num) hT
  have hhalf : 2 ^ (T.width - 1) ≤ 2 ^ 64 := Nat.pow_le_pow_right (by norm_num) (by omega)
  have hcast : ((2 ^ (T.width - 1) : ℕ) : ℤ) = 2 ^ (T.width - 1) := by norm_num
  rw [IntegerType.min] at hmin
  rw [IntegerType.max] at hmax
  split_ifs at hmin hmax <;> omega

/-- The integers of 64 bits are shorter than the reserve. -/
theorem length_decimalText_lt {T : IntegerType} (hT : T.width ≤ 64) {x : ℤ} (hx : T.InRange x) :
    (decimalText x).length < reservedSize := by
  have hdecimal := length_decimal_le ((natAbs_le_of_inRange hT hx).trans_lt (by norm_num))
  rw [decimalText, reservedSize]
  split_ifs
  · rw [List.length_cons]
    omega
  · omega

/-! ## Runs -/

/-- Every operation keeps to the buffer, except that the last byte of no text cannot be removed. -/
theorem Tracks.step (h : sb.Tracks text spent) {op : Op} (hop : op.Bounded)
    (hlimit : sb.useBuffer = true → spent + op.size < sizeLimit) :
    sb.Adds (op.apply text) (spent + op.length) (sb.step op) ∨
      op = .popBack ∧ sb.current = 0 ∧ sb.step op = .error .check := by
  cases op with
  | slice s => exact .inl (h.appendText hlimit)
  | char c =>
    have hshort : [c].length < reservedSize := by simp [reservedSize]
    exact .inl (h.appendReserved hshort hlimit)
  | bool b => exact .inl (h.appendText hlimit)
  | integer T x =>
    refine .inl ?_
    rw [StringBuilder.step, appendInteger, ToInteger.printInteger_eq T hop.2.1]
    exact h.appendReserved (length_decimalText_lt hop.1 hop.2) hlimit
  | fixedDouble printed precision => exact .inl (h.appendFixedDouble hop.1 hop.2 hlimit)
  | pointer printed => exact .inl (h.appendPointer hop hlimit)
  | appendChar count c =>
    have hcount : sb.useBuffer = true →
        spent + (List.replicate count c).length < sizeLimit := by
      rw [List.length_replicate]
      exact hlimit
    exact .inl (h.appendText hcount)
  | pushBack c => exact .inl (h.pushBack c hlimit)
  | popBack =>
    rcases h.popBack with hadds | ⟨hzero, hcheck⟩
    · exact .inl hadds
    · exact .inr ⟨rfl, hzero, hcheck⟩
  | clear => exact .inl ⟨sb.clear, rfl, rfl, h.clear⟩

theorem Tracks.run (h : sb.Tracks text spent) {ops : List Op} (hops : ∀ op ∈ ops, op.Bounded)
    (hlimit : sb.useBuffer = true → Allocatable spent ops) :
    (∃ spent', sb.Adds (ops.foldl Op.apply text) spent' (sb.run ops)) ∨
      ∃ before after sb', ops = before ++ .popBack :: after ∧ sb.run before = .ok sb' ∧
        sb'.current = 0 ∧ sb.run ops = .error .check := by
  induction ops generalizing sb text spent with
  | nil => exact .inl ⟨spent, sb, rfl, rfl, h⟩
  | cons op ops ih =>
    rw [StringBuilder.run, List.foldlM_cons]
    rcases h.step (hops op List.mem_cons_self) fun huse ↦ (hlimit huse).1 with
      ⟨sb₁, hstep, huse, h₁⟩ | ⟨rfl, hzero, hcheck⟩
    · rw [hstep, ok_bind]
      rcases ih h₁ (fun op' hmem ↦ hops op' (List.mem_cons_of_mem _ hmem))
        (fun htrue ↦ (hlimit (huse ▸ htrue)).2) with
        ⟨spent', sb₂, hrun, huse', h₂⟩ | ⟨before, after, sb₂, rfl, hrun, hzero, hcheck⟩
      · exact .inl ⟨spent', sb₂, hrun, huse'.trans huse, h₂⟩
      · refine .inr ⟨op :: before, after, sb₂, rfl, ?_, hzero, hcheck⟩
        rw [StringBuilder.run, List.foldlM_cons, hstep, ok_bind]
        exact hrun
    · exact .inr ⟨[], ops, sb, rfl, rfl, hzero, by rw [hcheck, error_bind]⟩

theorem useBuffer_new (slice : List UInt8) (useBuffer : Bool) :
    (new slice useBuffer).useBuffer = useBuffer := by
  rw [new]
  split_ifs <;> rfl

theorem tracks_new (slice : List UInt8) (useBuffer : Bool) : (new slice useBuffer).Tracks [] 0 := by
  refine ⟨fits_new slice useBuffer, ?_, ?_, ?_⟩ <;> rw [new] <;> split_ifs <;> intros <;> rfl

/-- The operations on a builder never write outside of its buffer.  The text is exact, or an error
is reported, which does not happen to a builder that may allocate its buffers.  A `CHECK` fails only
in `pop_back` without any text. -/
theorem run_keeps_text (slice : List UInt8) (useBuffer : Bool) {ops : List Op}
    (hops : ∀ op ∈ ops, op.Bounded) (hlimit : useBuffer = true → Allocatable 0 ops) :
    (∃ sb, (new slice useBuffer).run ops = .ok sb ∧ sb.asCslice = .ok sb.content ∧
      (sb.errorFlag = false → sb.content = ops.foldl Op.apply []) ∧
      (useBuffer = true → sb.errorFlag = false)) ∨
    ∃ before after sb, ops = before ++ .popBack :: after ∧
      (new slice useBuffer).run before = .ok sb ∧ sb.current = 0 ∧
      (new slice useBuffer).run ops = .error .check := by
  rcases (tracks_new slice useBuffer).run hops (by rwa [useBuffer_new]) with
    ⟨_, sb, hrun, huse, h⟩ | hpop
  · rw [useBuffer_new] at huse
    exact .inl ⟨sb, hrun, h.fits.asCslice, h.content, fun htrue ↦ h.errorFlag (huse ▸ htrue)⟩
  · exact .inr hpop

/-- A builder without a buffer of its own gets a slice and a number. -/
theorem run_keeps_text_slice : ∃ sb,
    (new [] false).run [.slice [104, 105], .integer ToInteger.int32 (-5)] = .ok sb ∧
      (sb.errorFlag = false → sb.content = [104, 105, 45, 53]) := by
  have hops : ∀ op ∈ [Op.slice [104, 105], Op.integer ToInteger.int32 (-5)], op.Bounded :=
    List.forall_mem_cons.mpr ⟨trivial, List.forall_mem_singleton.mpr
      ⟨by decide, by decide, by decide⟩⟩
  rcases run_keeps_text [] false hops (by simp) with
    ⟨sb, hrun, -, hcontent, -⟩ | ⟨before, after, sb, hops, -⟩
  · exact ⟨sb, hrun, hcontent⟩
  · have hmem : Op.popBack ∈ [Op.slice [104, 105], Op.integer ToInteger.int32 (-5)] := by
      simp [hops]
    simp at hmem

end StringBuilder

end PxcCore
