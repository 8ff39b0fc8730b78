import PxcCore.Lib.LittleEndian
import PxcCore.Lib.Result
import PxcCore.Utils.FlatHashTable.Table

/-!
# `TlParser`

`tl_parsers.h` and `tl_parsers.cpp`.  `data` points into the input or an aligned copy of it and,
once there has been an error, into a block of zeros.  Every read names the bytes it reads, and a
read of others is a fault.
-/

namespace PxcCore.Tl

open Lib

/-- How a function ends other than by returning: a read or write of memory that is not there, a
failed `CHECK`, `LOG(FATAL)`, `std::abort`, or what a hash table ends with. -/
inductive Fault where
  | outOfBounds
  | check
  | fatal
  | abort
  | table (fault : FlatHashTable.Fault)
deriving DecidableEq, Repr

/-- `sizeof(empty_data)`. -/
def emptyDataSize : ℕ := 32

/-- What `data` points to: a byte of the input or its copy, or of `empty_data`. -/
inductive Pointer where
  | block (pos : ℕ)
  | emptyData (pos : ℕ)
deriving DecidableEq, Repr

def Pointer.add : Pointer → ℕ → Pointer
  | .block pos, n => .block (pos + n)
  | .emptyData pos, n => .emptyData (pos + n)

/-- `TlParser`.  The input or its copy is `block`, and `none` is the `error_pos` that is
`numeric_limits<size_t>::max()`. -/
structure TlParser where
  block : List UInt8
  data : Pointer
  dataLen : ℕ
  leftLen : ℕ
  errorPos : Option ℕ := none
  error : String := ""
deriving DecidableEq, Repr

namespace TlParser

/-- The constructor, for a slice that is aligned or not. -/
def new (slice : List UInt8) (aligned : Bool) : Except Fault TlParser :=
  let p : TlParser :=
    { block := slice, data := .block 0, dataLen := slice.length, leftLen := slice.length }
  if aligned then .ok p
  else
    let bufSize := if slice.length ≤ 6 * 4 then 6 * 4 else (1 + slice.length / 4) * 4
    if slice.length ≤ bufSize then .ok p else .error .outOfBounds

/-- `set_error`. -/
def setError (p : TlParser) (errorMessage : String) : Except Fault TlParser :=
  if p.error = "" then
    if errorMessage = "" then .error .check
    else .ok { p with
      error := errorMessage, errorPos := some (p.dataLen - p.leftLen), data := .emptyData 0
      leftLen := 0, dataLen := 0 }
  else if p.errorPos ≠ none ∧ p.dataLen = 0 ∧ p.leftLen = 0 then .ok { p with data := .emptyData 0 }
  else .error .check

/-- `check_len`. -/
def checkLen (p : TlParser) (len : ℕ) : Except Fault TlParser :=
  if p.leftLen < len then p.setError "Not enough data to read"
  else .ok { p with leftLen := p.leftLen - len }

/-- The bytes at a pointer. -/
def read (p : TlParser) (n : ℕ) : Pointer → Except Fault (List UInt8)
  | .block pos =>
    if pos + n ≤ p.block.length then .ok ((p.block.drop pos).take n) else .error .outOfBounds
  | .emptyData pos =>
    if pos + n ≤ emptyDataSize then .ok (List.replicate n 0) else .error .outOfBounds

/-- `fetch_binary_unsafe`: the bytes of the result. -/
def fetchBinaryUnsafe (p : TlParser) (size : ℕ) : Except Fault (List UInt8 × TlParser) := do
  let result ← p.read size p.data
  return (result, { p with data := p.data.add size })

/-- `fetch_binary`, of a type of this size. -/
def fetchBinary (p : TlParser) (size : ℕ) : Except Fault (List UInt8 × TlParser) := do
  let p ← p.checkLen size
  p.fetchBinaryUnsafe size

/-- `fetch_int`. -/
def fetchInt (p : TlParser) : Except Fault (Int32 × TlParser) := do
  let (result, p) ← p.fetchBinary 4
  return ((UInt32.ofNat (ofLe result)).toInt32, p)

/-- `fetch_long`. -/
def fetchLong (p : TlParser) : Except Fault (Int64 × TlParser) := do
  let (result, p) ← p.fetchBinary 8
  return ((UInt64.ofNat (ofLe result)).toInt64, p)

/-- `fetch_double`, the bits of the number. -/
def fetchDouble (p : TlParser) : Except Fault (UInt64 × TlParser) := do
  let (result, p) ← p.fetchBinary 8
  return (UInt64.ofNat (ofLe result), p)

/-- The end of `fetch_string`; `data` is already behind the length. -/
def fetchStringContent (p : TlParser) (resultBegin : Pointer) (resultLen resultAlignedLen : ℕ) :
    Except Fault (List UInt8 × TlParser) := do
  let p ← p.checkLen resultAlignedLen
  if p.error ≠ "" then return ([], p)
  let p := { p with data := p.data.add resultAlignedLen }
  let result ← p.read resultLen resultBegin
  return (result, p)

/-- `fetch_string` behind its first `check_len`.  The bytes that the length is put together from are
read as one number. -/
def fetchStringChecked (p : TlParser) : Except Fault (List UInt8 × TlParser) := do
  let resultLen := ofLe (← p.read 1 p.data)
  if resultLen < 254 then
    fetchStringContent { p with data := p.data.add 4 } (p.data.add 1) resultLen
      ((resultLen >>> 2) <<< 2)
  else if resultLen = 254 then
    let resultLen := ofLe (← p.read 3 (p.data.add 1))
    fetchStringContent { p with data := p.data.add 4 } (p.data.add 4) resultLen
      (((resultLen + 3) >>> 2) <<< 2)
  else
    let p ← p.checkLen 4
    let resultLen := ofLe (← p.read 7 (p.data.add 1))
    if resultLen > 2 ^ 64 - 1 - 3 then
      let p ← p.setError "Too big string found"
      return ([], p)
    fetchStringContent { p with data := p.data.add 8 } (p.data.add 8) resultLen
      (((resultLen + 3) >>> 2) <<< 2)

/-- `fetch_string`. -/
def fetchString (p : TlParser) : Except Fault (List UInt8 × TlParser) := do
  let p ← p.checkLen 4
  p.fetchStringChecked

/-- `fetch_string_raw`. -/
def fetchStringRaw (p : TlParser) (size : ℕ) : Except Fault (List UInt8 × TlParser) := do
  let p ← p.checkLen size
  if p.error ≠ "" then return ([], p)
  let result ← p.read size p.data
  return (result, { p with data := p.data.add size })

/-- `fetch_end`. -/
def fetchEnd (p : TlParser) : Except Fault TlParser :=
  if p.leftLen ≠ 0 then p.setError "Too much data to fetch" else .ok p

/-! ## Steps -/

/-- The checked fetches.  The size of a type is at least one and at most that of `empty_data`, which
is asserted. -/
inductive Op where
  | fetchInt
  | fetchLong
  | fetchDouble
  | fetchBinary (size : ℕ) (pos : 0 < size) (le : size ≤ emptyDataSize)
  | fetchString
  | fetchStringRaw (size : ℕ)
  | fetchEnd

/-- One fetch; what it returns does not matter here. -/
def step (p : TlParser) : Op → Except Fault TlParser
  | .fetchInt => Prod.snd <$> p.fetchInt
  | .fetchLong => Prod.snd <$> p.fetchLong
  | .fetchDouble => Prod.snd <$> p.fetchDouble
  | .fetchBinary size _ _ => Prod.snd <$> p.fetchBinary size
  | .fetchString => Prod.snd <$> p.fetchString
  | .fetchStringRaw size => Prod.snd <$> p.fetchStringRaw size
  | .fetchEnd => p.fetchEnd

/-- A sequence of fetches. -/
def run (p : TlParser) (ops : List Op) : Except Fault TlParser := ops.foldlM step p

end TlParser

/-! ## What is left to read -/

/-- The bytes that are left to read, none after an error. -/
abbrev Stream := Option (List UInt8)

namespace Stream

/-- The next `n` bytes, or zeros. -/
def take (n : ℕ) : Stream → List UInt8 × Stream
  | some bytes =>
    if n ≤ bytes.length then (bytes.take n, some (bytes.drop n)) else (List.replicate n 0, none)
  | none => (List.replicate n 0, none)

/-- How a string starts: the number of bytes that its length takes, and the length. -/
def stringHeader (bytes : List UInt8) : ℕ × ℕ :=
  let len := ofLe (bytes.take 1)
  if len < 254 then (1, len)
  else if len = 254 then (4, ofLe ((bytes.drop 1).take 3))
  else (8, ofLe ((bytes.drop 1).take 7))

/-- A string whose length takes `header` bytes: the length, the bytes of the string, and zeros up to
a multiple of four. -/
def content (bytes : List UInt8) (header len : ℕ) : List UInt8 × Stream :=
  let total := (header + len + 3) / 4 * 4
  if total ≤ bytes.length then ((bytes.drop header).take len, some (bytes.drop total))
  else ([], none)

/-- The next string. -/
def string : Stream → List UInt8 × Stream
  | some bytes =>
    if 4 ≤ bytes.length then content bytes (stringHeader bytes).1 (stringHeader bytes).2
    else ([], none)
  | none => ([], none)

/-- The next `n` bytes as a string. -/
def raw (n : ℕ) : Stream → List UInt8 × Stream
  | some bytes =>
    if n ≤ bytes.length then (bytes.take n, some (bytes.drop n)) else ([], none)
  | none => ([], none)

/-- The end, or an error if there are bytes left. -/
def finish : Stream → Stream
  | some [] => some []
  | _ => none

end Stream

namespace TlParser

/-- The parser stands before these bytes; the first `n` of them are already counted as read. -/
def At (p : TlParser) (n : ℕ) : Stream → Prop
  | some bytes => p.error = "" ∧ p.errorPos = none ∧ p.leftLen + n = bytes.length ∧
      p.dataLen = p.block.length ∧
      ∃ pos ≤ p.block.length, p.data = .block pos ∧ p.block.drop pos = bytes
  | none => p.error ≠ "" ∧ p.errorPos ≠ none ∧ p.leftLen = 0 ∧ p.dataLen = 0 ∧
      ∃ pos, p.data = .emptyData pos

/-- What a fetch leaves as it is: the input, and an error with its position. -/
structure Keeps (p p' : TlParser) : Prop where
  block : p'.block = p.block
  error : p.error ≠ "" → p'.error = p.error ∧ p'.errorPos = p.errorPos

theorem Keeps.refl (p : TlParser) : Keeps p p := ⟨rfl, fun _ ↦ ⟨rfl, rfl⟩⟩

theorem Keeps.trans {p p' p'' : TlParser} (h : Keeps p p') (h' : Keeps p' p'') : Keeps p p'' where
  block := h'.block.trans h.block
  error he := by
    obtain ⟨h₁, h₂⟩ := h.error he
    obtain ⟨h₃, h₄⟩ := h'.error (h₁.trans_ne he)
    exact ⟨h₃.trans h₁, h₄.trans h₂⟩

variable {α : Type} {p p' : TlParser} {s : Stream} {bytes : List UInt8} {n k : ℕ}

/-- Moving `data` keeps everything else. -/
theorem Keeps.move (p : TlParser) (data : Pointer) : Keeps p { p with data := data } :=
  ⟨rfl, fun _ ↦ ⟨rfl, rfl⟩⟩

theorem At.setError (h : p.At n s) {msg : String} (hm : msg ≠ "") :
    ∃ p', p.setError msg = .ok p' ∧ p'.At 0 none ∧ p'.data = .emptyData 0 ∧ Keeps p p' := by
  cases s with
  | some bytes =>
    obtain ⟨he, -⟩ := h
    refine ⟨_, (if_pos he).trans (if_neg hm), ?_, rfl, rfl, fun h ↦ (h he).elim⟩
    exact ⟨hm, by simp, rfl, rfl, 0, rfl⟩
  | none =>
    obtain ⟨he, hp, hl, hd, -⟩ := h
    refine ⟨_, (if_neg he).trans (if_pos ⟨hp, hd, hl⟩), ?_, rfl, rfl, fun _ ↦ ⟨rfl, rfl⟩⟩
    exact ⟨he, hp, hl, hd, 0, rfl⟩

/-- `check_len` counts bytes that are there. -/
theorem At.checkLen (h : p.At n (some bytes)) (hk : n + k ≤ bytes.length) :
    ∃ p', p.checkLen k = .ok p' ∧ p'.At (n + k) (some bytes) ∧ p'.data = p.data ∧ Keeps p p' := by
  obtain ⟨he, hp, hl, hd, hdata⟩ := h
  refine ⟨_, if_neg (by omega), ⟨he, hp, ?_, hd, hdata⟩, rfl, rfl, fun _ ↦ ⟨rfl, rfl⟩⟩
  change p.leftLen - k + (n + k) = bytes.length
  omega

/-- `check_len` fails if there are not that many bytes. -/
theorem At.checkLen_fails (h : p.At n (some bytes)) (hk : bytes.length < n + k) :
    ∃ p', p.checkLen k = .ok p' ∧ p'.At 0 none ∧ p'.data = .emptyData 0 ∧ Keeps p p' := by
  have hl := h.2.2.1
  rw [TlParser.checkLen, if_pos (by omega)]
  exact h.setError (by decide)

/-- After an error `check_len` leads back to `empty_data`, unless nothing is asked for. -/
theorem At.checkLen_none (h : p.At n none) (k : ℕ) :
    ∃ p', p.checkLen k = .ok p' ∧ p'.At 0 none ∧ (0 < k → p'.data = .emptyData 0) ∧
      Keeps p p' := by
  rcases Nat.eq_zero_or_pos k with rfl | hk
  · refine ⟨_, if_neg (Nat.not_lt_zero _), h, fun h ↦ (lt_irrefl _ h).elim, .refl p⟩
  · rw [TlParser.checkLen, if_pos (by rw [h.2.2.1]; exact hk)]
    obtain ⟨p', hr, ha, hd, hkeep⟩ := h.setError (by decide : "Not enough data to read" ≠ "")
    exact ⟨p', hr, ha, fun _ ↦ hd, hkeep⟩

/-- Bytes that are there can be read. -/
theorem At.read (h : p.At n (some bytes)) {offset : ℕ} (hk : offset + k ≤ bytes.length) :
    p.read k (p.data.add offset) = .ok ((bytes.drop offset).take k) := by
  obtain ⟨-, -, -, -, pos, hpos, hdata, rfl⟩ := h
  rw [List.length_drop] at hk
  rw [hdata, Pointer.add, TlParser.read, if_pos (by omega), List.drop_drop]

theorem At.read_data (h : p.At n (some bytes)) (hk : k ≤ bytes.length) :
    p.read k p.data = .ok (bytes.take k) := by
  obtain ⟨-, -, -, -, pos, hpos, hdata, rfl⟩ := h
  rw [List.length_drop] at hk
  rw [hdata, TlParser.read, if_pos (by omega)]

/-- `empty_data` holds zeros. -/
theorem read_emptyData {offset : ℕ} (hd : p.data = .emptyData 0) (hk : offset + k ≤ 32) :
    p.read k (p.data.add offset) = .ok (List.replicate k 0) := by
  rw [hd, Pointer.add, TlParser.read, if_pos (by rw [emptyDataSize]; omega)]

theorem read_data_emptyData (hd : p.data = .emptyData 0) (hk : k ≤ 32) :
    p.read k p.data = .ok (List.replicate k 0) := by
  rw [hd, TlParser.read, if_pos (by rw [emptyDataSize]; omega)]

/-- Bytes that are counted are passed over. -/
theorem At.move (h : p.At (n + k) (some bytes)) :
    TlParser.At { p with data := p.data.add k } n (some (bytes.drop k)) := by
  obtain ⟨he, hp, hl, hd, pos, hpos, hdata, rfl⟩ := h
  rw [List.length_drop] at hl
  refine ⟨he, hp, ?_, hd, pos + k, ?_, by rw [hdata]; rfl, (List.drop_drop).symm⟩
  · rw [List.length_drop, List.length_drop]
    change p.leftLen + n = _
    omega
  · change pos + k ≤ p.block.length
    omega

theorem At.move_none (h : p.At n none) (k : ℕ) :
    TlParser.At { p with data := p.data.add k } 0 none := by
  obtain ⟨he, hp, hl, hd, pos, hdata⟩ := h
  exact ⟨he, hp, hl, hd, pos + k, by rw [hdata]; rfl⟩

/-! ## What the fetches return -/

/-- A fetch by `p` has the result `v` and leaves `s` to read. -/
def Fetches (p : TlParser) (r : Except Fault (α × TlParser)) (v : α) (s : Stream) : Prop :=
  ∃ p', r = .ok (v, p') ∧ p'.At 0 s ∧ Keeps p p'

theorem Fetches.of_keeps {r : Except Fault (α × TlParser)} {v : α} (hk : Keeps p p')
    (h : Fetches p' r v s) : Fetches p r v s := by
  obtain ⟨p'', hr, ha, hk'⟩ := h
  exact ⟨p'', hr, ha, hk.trans hk'⟩

theorem Fetches.move {data : Pointer} {r : Except Fault (α × TlParser)} {v : α}
    (h : Fetches { p with data := data } r v s) : Fetches p r v s :=
  .of_keeps (.move p data) h

theorem At.fetchBinary (h : p.At 0 s) (hn : 0 < n) (hn' : n ≤ emptyDataSize) :
    Fetches p (p.fetchBinary n) (s.take n).1 (s.take n).2 := by
  rw [TlParser.fetchBinary]
  cases s with
  | none =>
    obtain ⟨p', hr, ha, hd, hk⟩ := h.checkLen_none n
    refine ⟨_, ?_, ha.move_none n, hk.trans (.move p' _)⟩
    rw [hr, ok_bind, fetchBinaryUnsafe, read_data_emptyData (hd hn) hn', ok_bind]
    rfl
  | some bytes =>
    rw [Stream.take]
    split_ifs with hle
    · obtain ⟨p', hr, ha, hd, hk⟩ := h.checkLen (k := n) (by rwa [Nat.zero_add])
      refine ⟨_, ?_, ha.move, hk.trans (.move p' _)⟩
      rw [hr, ok_bind, fetchBinaryUnsafe, ha.read_data hle, ok_bind]
      rfl
    · obtain ⟨p', hr, ha, hd, hk⟩ := h.checkLen_fails (k := n) (by omega)
      refine ⟨_, ?_, ha.move_none n, hk.trans (.move p' _)⟩
      rw [hr, ok_bind, fetchBinaryUnsafe, read_data_emptyData hd hn', ok_bind]
      rfl

theorem shift_two (n : ℕ) : (n >>> 2) <<< 2 = n / 4 * 4 := by
  rw [Nat.shiftLeft_eq, Nat.shiftRight_eq_div_pow]

/-- The rest of a string whose length has been read; `a` bytes are passed over. -/
theorem At.fetchStringContent {pos a header len : ℕ} (h : p.At 0 (some (bytes.drop a)))
    (hpos : pos ≤ p.block.length) (hbytes : p.block.drop pos = bytes)
    (hk : a + k = (header + len + 3) / 4 * 4) (ha : a ≤ bytes.length) :
    Fetches p (p.fetchStringContent ((Pointer.block pos).add header) len k)
      (Stream.content bytes header len).1 (Stream.content bytes header len).2 := by
  have hl : (bytes.drop a).length = bytes.length - a := List.length_drop
  rw [TlParser.fetchStringContent, Stream.content, ← hk]
  split_ifs with hle
  · obtain ⟨p', hr, ha', -, hkeep⟩ := h.checkLen (k := k) (by omega)
    have hread (q : TlParser) (hq : q.block = p.block) :
        q.read len ((Pointer.block pos).add header) = .ok ((bytes.drop header).take len) := by
      have : pos + bytes.length = p.block.length := by
        rw [← hbytes, List.length_drop]
        omega
      rw [Pointer.add, TlParser.read, hq, if_pos (by omega), ← hbytes, List.drop_drop]
    refine ⟨_, ?_, List.drop_drop ▸ ha'.move, hkeep.trans (.move p' _)⟩
    rw [hr, ok_bind, if_neg (not_not.2 ha'.1)]
    exact bind_eq_ok.2 ⟨_, hread _ hkeep.block, rfl⟩
  · obtain ⟨p', hr, ha', -, hkeep⟩ := h.checkLen_fails (k := k) (by omega)
    refine ⟨p', ?_, ha', hkeep⟩
    rw [hr, ok_bind, if_pos ha'.1]
    rfl

theorem At.fetchStringContent_none (h : p.At 0 none) (resultBegin : Pointer) (len : ℕ) :
    Fetches p (p.fetchStringContent resultBegin len 0) [] none := by
  obtain ⟨p', hr, ha, -, hk⟩ := h.checkLen_none 0
  refine ⟨p', ?_, ha, hk⟩
  rw [TlParser.fetchStringContent, hr, ok_bind, if_pos ha.1]
  rfl

/-- After an error the length that is read is zero, and so is the string. -/
theorem At.fetchStringChecked_none (h : p.At 0 none) (hd : p.data = .emptyData 0) :
    Fetches p p.fetchStringChecked [] none := by
  obtain ⟨p', hr, ha, hk⟩ := (h.move_none 4).fetchStringContent_none (p.data.add 1) 0
  refine ⟨p', ?_, ha, (Keeps.move p _).trans hk⟩
  have h0 : ofLe (List.replicate 1 0) = 0 := ofLe_replicate 1
  rw [fetchStringChecked, read_data_emptyData hd (by decide), ok_bind, h0, if_pos (by decide)]
  exact hr

theorem At.fetchStringChecked (h : p.At 4 (some bytes)) (h4 : 4 ≤ bytes.length) :
    Fetches p p.fetchStringChecked (Stream.string (some bytes)).1
      (Stream.string (some bytes)).2 := by
  have hmove := At.move (n := 0) (k := 4) h
  obtain ⟨-, -, -, -, pos, hpos, hdata, hbytes⟩ := id h
  rw [Stream.string, if_pos h4, Stream.stringHeader, TlParser.fetchStringChecked,
    h.read_data (by omega), ok_bind]
  by_cases h1 : ofLe (bytes.take 1) < 254
  · rw [if_pos h1, if_pos h1, shift_two, hdata]
    rw [hdata] at hmove
    exact (hmove.fetchStringContent hpos hbytes (by omega) h4).move
  rw [if_neg h1, if_neg h1]
  by_cases h2 : ofLe (bytes.take 1) = 254
  · rw [if_pos h2, if_pos h2, h.read (by omega), ok_bind]
    dsimp only
    rw [shift_two, hdata]
    rw [hdata] at hmove
    exact (hmove.fetchStringContent hpos hbytes (by omega) h4).move
  rw [if_neg h2, if_neg h2]
  by_cases h8 : 8 ≤ bytes.length
  · obtain ⟨p', hr, ha, hd, hk⟩ := h.checkLen (k := 4) (by omega)
    have hmove := At.move (n := 0) (k := 8) ha
    have hseven : ofLe ((bytes.drop 1).take 7) < 256 ^ 7 := by
      refine (ofLe_lt _).trans_le ?_
      rw [List.length_take]
      exact Nat.pow_le_pow_right (by decide) (min_le_left 7 _)
    rw [hr, ok_bind, ha.read (by omega), ok_bind]
    dsimp only
    rw [if_neg (by omega), shift_two, hd, hdata]
    rw [hd, hdata] at hmove
    refine Fetches.of_keeps hk (hmove.fetchStringContent ?_ ?_ (by omega) h8).move
    · exact hk.block ▸ hpos
    · exact hk.block ▸ hbytes
  · obtain ⟨p', hr, ha, hd, hk⟩ := h.checkLen_fails (k := 4) (by omega)
    have h0 : ofLe (List.replicate 7 0) = 0 := ofLe_replicate 7
    have hs : Stream.content bytes 8 (ofLe ((bytes.drop 1).take 7)) = ([], none) :=
      if_neg (by omega)
    rw [hr, ok_bind, read_emptyData hd (by decide), ok_bind, h0]
    dsimp only
    rw [if_neg (by decide), hs]
    exact .of_keeps hk ((ha.move_none 8).fetchStringContent_none _ 0).move

theorem At.fetchString (h : p.At 0 s) : Fetches p p.fetchString s.string.1 s.string.2 := by
  rw [TlParser.fetchString]
  cases s with
  | none =>
    obtain ⟨p', hr, ha, hd, hk⟩ := h.checkLen_none 4
    rw [hr, ok_bind]
    exact .of_keeps hk (ha.fetchStringChecked_none (hd (by decide)))
  | some bytes =>
    by_cases h4 : 4 ≤ bytes.length
    · obtain ⟨p', hr, ha, -, hk⟩ := h.checkLen (k := 4) (by omega)
      rw [hr, ok_bind]
      exact .of_keeps hk (At.fetchStringChecked ha h4)
    · obtain ⟨p', hr, ha, hd, hk⟩ := h.checkLen_fails (k := 4) (by omega)
      have hs : Stream.string (some bytes) = ([], none) := if_neg h4
      rw [hr, ok_bind, hs]
      exact .of_keeps hk (ha.fetchStringChecked_none hd)

theorem At.fetchStringRaw (h : p.At 0 s) (n : ℕ) :
    Fetches p (p.fetchStringRaw n) (s.raw n).1 (s.raw n).2 := by
  rw [TlParser.fetchStringRaw]
  cases s with
  | none =>
    obtain ⟨p', hr, ha, -, hk⟩ := h.checkLen_none n
    refine ⟨p', ?_, ha, hk⟩
    rw [hr, ok_bind, if_pos ha.1]
    rfl
  | some bytes =>
    rw [Stream.raw]
    split_ifs with hle
    · obtain ⟨p', hr, ha, -, hk⟩ := h.checkLen (k := n) (by omega)
      refine ⟨_, ?_, ha.move, hk.trans (.move p' _)⟩
      rw [hr, ok_bind, if_neg (not_not.2 ha.1)]
      exact bind_eq_ok.2 ⟨_, ha.read_data hle, rfl⟩
    · obtain ⟨p', hr, ha, -, hk⟩ := h.checkLen_fails (k := n) (by omega)
      refine ⟨p', ?_, ha, hk⟩
      rw [hr, ok_bind, if_pos ha.1]
      rfl

theorem At.fetchEnd (h : p.At 0 s) :
    ∃ p', p.fetchEnd = .ok p' ∧ p'.At 0 s.finish ∧ Keeps p p' := by
  cases s with
  | none => exact ⟨p, if_neg (not_not.2 h.2.2.1), h, .refl p⟩
  | some bytes =>
    cases bytes with
    | nil => exact ⟨p, if_neg (not_not.2 h.2.2.1), h, .refl p⟩
    | cons b bytes =>
      obtain ⟨p', hr, ha, -, hk⟩ := h.setError (by decide : "Too much data to fetch" ≠ "")
      refine ⟨p', (if_pos ?_).trans hr, ha, hk⟩
      rw [show p.leftLen = _ from h.2.2.1, List.length_cons]
      omega

/-- The number that the next bytes are, or zero. -/
theorem At.fetchInt (h : p.At 0 s) :
    Fetches p p.fetchInt (UInt32.ofNat (ofLe (s.take 4).1)).toInt32 (s.take 4).2 := by
  obtain ⟨p', hr, ha, hk⟩ := h.fetchBinary (n := 4) (by decide) (by decide)
  exact ⟨p', bind_eq_ok.2 ⟨_, hr, rfl⟩, ha, hk⟩

theorem At.fetchLong (h : p.At 0 s) :
    Fetches p p.fetchLong (UInt64.ofNat (ofLe (s.take 8).1)).toInt64 (s.take 8).2 := by
  obtain ⟨p', hr, ha, hk⟩ := h.fetchBinary (n := 8) (by decide) (by decide)
  exact ⟨p', bind_eq_ok.2 ⟨_, hr, rfl⟩, ha, hk⟩

theorem At.fetchDouble (h : p.At 0 s) :
    Fetches p p.fetchDouble (UInt64.ofNat (ofLe (s.take 8).1)) (s.take 8).2 := by
  obtain ⟨p', hr, ha, hk⟩ := h.fetchBinary (n := 8) (by decide) (by decide)
  exact ⟨p', bind_eq_ok.2 ⟨_, hr, rfl⟩, ha, hk⟩

/-- The copy of an input that is not aligned fits into its buffer. -/
theorem new_spec (slice : List UInt8) (aligned : Bool) :
    ∃ p, new slice aligned = .ok p ∧ p.At 0 (some slice) ∧ p.block = slice := by
  refine ⟨{ block := slice, data := .block 0, dataLen := slice.length, leftLen := slice.length },
    ?_, ⟨rfl, rfl, rfl, rfl, 0, Nat.zero_le _, rfl, rfl⟩, rfl⟩
  rw [new]
  cases aligned with
  | true => rfl
  | false =>
    refine (if_neg Bool.false_ne_true).trans (if_pos ?_)
    split_ifs with h
    · exact h
    · omega

/-! ## Runs -/

/-- What one fetch does: no read goes wrong, and the parser stands before some bytes again. -/
theorem At.step (h : p.At 0 s) (op : Op) :
    ∃ s' p', p.step op = .ok p' ∧ p'.At 0 s' ∧ Keeps p p' := by
  have snd {α : Type} {r : Except Fault (α × TlParser)} {v : α} {s' : Stream}
      (hf : Fetches p r v s') : ∃ s' p', Prod.snd <$> r = .ok p' ∧ p'.At 0 s' ∧ Keeps p p' := by
    obtain ⟨p', rfl, ha, hk⟩ := hf
    exact ⟨s', p', rfl, ha, hk⟩
  cases op with
  | fetchInt => exact snd h.fetchInt
  | fetchLong => exact snd h.fetchLong
  | fetchDouble => exact snd h.fetchDouble
  | fetchBinary size hpos hle => exact snd (h.fetchBinary hpos hle)
  | fetchString => exact snd h.fetchString
  | fetchStringRaw size => exact snd (h.fetchStringRaw size)
  | fetchEnd =>
    obtain ⟨p', hr, ha, hk⟩ := h.fetchEnd
    exact ⟨_, p', hr, ha, hk⟩

theorem At.run (h : p.At 0 s) (ops : List Op) :
    ∃ s' p', p.run ops = .ok p' ∧ p'.At 0 s' ∧ Keeps p p' := by
  induction ops generalizing p s with
  | nil => exact ⟨s, p, rfl, h, .refl p⟩
  | cons op ops ih =>
    obtain ⟨s₁, p₁, hr₁, ha₁, hk₁⟩ := h.step op
    obtain ⟨s₂, p₂, hr₂, ha₂, hk₂⟩ := ih ha₁
    exact ⟨s₂, p₂, bind_eq_ok.2 ⟨p₁, hr₁, hr₂⟩, ha₂, hk₁.trans hk₂⟩

/-- Whatever is fetched, every read stays within the input or `empty_data`; until there is an error
what is left and what was passed over make up the input, and the first error stays. -/
theorem run_safe (slice : List UInt8) (aligned : Bool) (ops more : List Op) :
    ∃ p p' p'', new slice aligned = .ok p ∧ p.run ops = .ok p' ∧ p'.run more = .ok p'' ∧
      (p'.error = "" → ∃ pos, p'.data = .block pos ∧ pos + p'.leftLen = slice.length) ∧
      (p'.error ≠ "" → p''.error = p'.error ∧ p''.errorPos = p'.errorPos) := by
  obtain ⟨p, hr, ha, hb⟩ := new_spec slice aligned
  obtain ⟨s', p', hr', ha', hk'⟩ := ha.run ops
  obtain ⟨s'', p'', hr'', -, hk''⟩ := ha'.run more
  refine ⟨p, p', p'', hr, hr', hr'', ?_, hk''.error⟩
  intro he
  cases s' with
  | none => exact (ha'.1 he).elim
  | some bytes =>
    obtain ⟨-, -, hl, -, pos, hpos, hdata, rfl⟩ := ha'
    refine ⟨pos, hdata, ?_⟩
    rw [hk'.block, hb, List.length_drop] at hl
    rw [hk'.block, hb] at hpos
    omega

end TlParser

end PxcCore.Tl
