import PxcCore.Lib.ListUpdate

/-!
# BufferedReader

`BufferedReader.h`: reads from a file through a buffer.  A read takes what is in the buffer, and for
the rest reads from the file, straight into the slice or into the buffer.

The file is a list of bytes, and answers a read with an error or with as many of the next bytes as
it likes, but not with more than there are and than fit.
-/

namespace PxcCore

open Lib

/-! ## Definitions -/

/-- A file, and how many of its bytes have been read. -/
structure FileFd where
  bytes : List UInt8
  position : ℕ := 0

namespace FileFd

/-- What the file does when it is read. -/
inductive Answer where
  | error (error : String)
  | bytes (count : ℕ)

/-- The bytes that have not been read yet. -/
def unread (file : FileFd) : List UInt8 := file.bytes.drop file.position

/-- `FileFd::read` into a slice of this size. -/
def read (file : FileFd) (size : ℕ) : Answer → Except String (List UInt8) × FileFd
  | .error error => (.error error, file)
  | .bytes count =>
    let bytes := file.unread.take (min count size)
    (.ok bytes, { file with position := file.position + bytes.length })

end FileFd

structure BufferedReader where
  file : FileFd
  buff : List UInt8
  beginPos : ℕ := 0
  endPos : ℕ := 0

namespace BufferedReader

/-- The constructor. -/
def new (file : FileFd) (buffSize : ℕ) : BufferedReader where
  file := file
  buff := List.replicate buffSize 0

/-- What a read returns, and what it leaves behind in the slice. -/
structure Outcome where
  result : Except String ℕ
  slice : List UInt8
  reader : BufferedReader

/-- `BufferedReader::read`, with what the file does if it is read. -/
def read (r : BufferedReader) (slice : List UInt8) (answer : FileFd.Answer) : Outcome :=
  let available := r.endPos - r.beginPos
  if available ≥ slice.length then
    ⟨.ok slice.length, patch slice 0 ((r.buff.drop r.beginPos).take slice.length),
      { r with beginPos := r.beginPos + slice.length }⟩
  else
    let slice := patch slice 0 ((r.buff.drop r.beginPos).take available)
    let r := { r with beginPos := r.beginPos + available }
    let size := slice.length - available
    if size > r.buff.length / 2 then
      match r.file.read size answer with
      | (.error error, file) => ⟨.error error, slice, { r with file := file }⟩
      | (.ok bytes, file) =>
        ⟨.ok (bytes.length + available), patch slice available bytes, { r with file := file }⟩
    else
      match r.file.read r.buff.length answer with
      | (.error error, file) => ⟨.error error, slice, { r with file := file }⟩
      | (.ok bytes, file) =>
        let r := { r with
          file := file, buff := patch r.buff 0 bytes, beginPos := 0, endPos := bytes.length }
        let left := min r.endPos size
        ⟨.ok (left + available), patch slice available (r.buff.take left),
          { r with beginPos := left }⟩

/-- The bytes that a successful read returns. -/
def Outcome.bytes (outcome : Outcome) : List UInt8 :=
  match outcome.result with
  | .ok count => outcome.slice.take count
  | .error _ => []

/-- A call of `read`. -/
structure Call where
  slice : List UInt8
  answer : FileFd.Answer

/-- Calls one after another, with the bytes that the successful ones have returned. -/
def run (r : BufferedReader) (output : List UInt8) : List Call → BufferedReader × List UInt8
  | [] => (r, output)
  | call :: calls =>
    let outcome := r.read call.slice call.answer
    run outcome.reader (output ++ outcome.bytes) calls

/-! ## One read -/

/-- The bytes in the buffer that have not been returned yet. -/
def buffered (r : BufferedReader) : List UInt8 :=
  (r.buff.drop r.beginPos).take (r.endPos - r.beginPos)

/-- The positions are in the buffer. -/
structure Valid (r : BufferedReader) : Prop where
  begin_le : r.beginPos ≤ r.endPos
  end_le : r.endPos ≤ r.buff.length

variable {r : BufferedReader} {slice : List UInt8} {answer : FileFd.Answer}

theorem Valid.length_buffered (h : r.Valid) : r.buffered.length = r.endPos - r.beginPos := by
  have := h.end_le
  rw [buffered, List.length_take, List.length_drop]
  omega

/-- A read from the file takes the next bytes. -/
theorem read_file {file file' : FileFd} {size : ℕ} {bytes : List UInt8}
    (h : file.read size answer = (.ok bytes, file')) :
    (∀ error, answer ≠ .error error) ∧ bytes.length ≤ size ∧ file'.bytes = file.bytes ∧
      bytes ++ file'.unread = file.unread := by
  cases answer with
  | error error => cases h
  | bytes count =>
    cases h
    refine ⟨fun _ h ↦ (by cases h), ?_, rfl, ?_⟩
    · rw [List.length_take]
      omega
    · rw [FileFd.unread, FileFd.unread, ← List.drop_drop]
      exact List.prefix_iff_eq_append.1 (List.take_prefix _ _)

theorem read_file_error {file file' : FileFd} {size : ℕ} {error : String}
    (h : file.read size answer = (.error error, file')) :
    answer = .error error ∧ file' = file := by
  cases answer with
  | error error =>
    cases h
    exact ⟨rfl, rfl⟩
  | bytes count => cases h

theorem patch_zero (slice bytes : List UInt8) :
    patch slice 0 bytes = bytes ++ slice.drop bytes.length := by
  rw [patch, List.take_zero, List.nil_append, Nat.zero_add]

/-- Two pieces are put into a slice, one behind the other. -/
theorem take_patch_patch (slice bytes bytes' : List UInt8) :
    (patch (patch slice 0 bytes) bytes.length bytes').take (bytes'.length + bytes.length) =
      bytes ++ bytes' := by
  have hright := patch_append_right bytes (slice.drop bytes.length) 0 bytes'
  rw [Nat.add_zero] at hright
  rw [patch_zero, hright, patch_zero, ← List.append_assoc, List.take_left']
  rw [List.length_append, Nat.add_comm]

/-- The file is read, and fails. -/
def Fails (r : BufferedReader) (call : Call) : Prop :=
  (∃ error, call.answer = .error error) ∧ r.endPos - r.beginPos < call.slice.length

/-- A read returns the next bytes of the buffer and of the file.  If the file fails it returns
nothing, and the buffer is empty afterwards. -/
structure Reads (r : BufferedReader) (call : Call) (outcome : Outcome) : Prop where
  valid : outcome.reader.Valid
  file : outcome.reader.file.bytes = r.file.bytes
  next : ¬Fails r call → outcome.bytes ++ (outcome.reader.buffered ++
    outcome.reader.file.unread) = r.buffered ++ r.file.unread
  fails : Fails r call → outcome.bytes = [] ∧ outcome.reader.buffered = [] ∧
    outcome.reader.file.unread = r.file.unread

theorem buffered_of_le (h : r.endPos ≤ r.beginPos) : r.buffered = [] := by
  rw [buffered, Nat.sub_eq_zero_of_le h, List.take_zero]

/-- The buffer holds enough. -/
theorem reads_served (h : r.Valid) {call : Call}
    (hserved : call.slice.length ≤ r.endPos - r.beginPos) : Reads r call ⟨.ok call.slice.length,
      patch call.slice 0 ((r.buff.drop r.beginPos).take call.slice.length),
      { r with beginPos := r.beginPos + call.slice.length }⟩ := by
  have hbegin := h.begin_le
  have hend := h.end_le
  refine ⟨⟨?_, hend⟩, rfl, fun _ ↦ ?_, fun hfails ↦ absurd hserved (not_le.2 hfails.2)⟩
  · change r.beginPos + call.slice.length ≤ r.endPos
    omega
  · have hbytes : (patch call.slice 0 ((r.buff.drop r.beginPos).take call.slice.length)).take
        call.slice.length = r.buffered.take call.slice.length := by
      rw [patch_zero, List.take_left', buffered, List.take_take, Nat.min_eq_left hserved]
      rw [List.length_take, List.length_drop]
      omega
    have hrest : ({ r with beginPos := r.beginPos + call.slice.length }).buffered =
        r.buffered.drop call.slice.length := by
      rw [buffered, buffered, List.drop_take, List.drop_drop, Nat.sub_add_eq]
    simp only [Outcome.bytes, hbytes, hrest]
    rw [← List.append_assoc, List.take_append_drop]

/-- The file is read, and fails. -/
theorem reads_error (h : r.Valid) {call : Call} {error : String}
    (hanswer : call.answer = .error error) (hless : r.endPos - r.beginPos < call.slice.length)
    (slice : List UInt8) :
    Reads r call ⟨.error error, slice,
      { r with beginPos := r.beginPos + (r.endPos - r.beginPos) }⟩ := by
  have hempty : r.beginPos + (r.endPos - r.beginPos) = r.endPos := Nat.add_sub_of_le h.begin_le
  rw [hempty]
  exact ⟨⟨le_rfl, h.end_le⟩, rfl, fun hnot ↦ absurd ⟨⟨error, hanswer⟩, hless⟩ hnot,
    fun _ ↦ ⟨rfl, buffered_of_le le_rfl, rfl⟩⟩

/-- What is in the buffer is returned, and what the file delivers for the rest of the slice. -/
theorem reads_direct (h : r.Valid) {call : Call} (hnot : ¬Fails r call) {file : FileFd}
    {bytes : List UInt8} (hfile : file.bytes = r.file.bytes)
    (hunread : bytes ++ file.unread = r.file.unread) :
    Reads r call ⟨.ok (bytes.length + (r.endPos - r.beginPos)),
      patch (patch call.slice 0 r.buffered) (r.endPos - r.beginPos) bytes,
      { r with file := file, beginPos := r.beginPos + (r.endPos - r.beginPos) }⟩ := by
  have hempty : r.beginPos + (r.endPos - r.beginPos) = r.endPos := Nat.add_sub_of_le h.begin_le
  refine ⟨⟨hempty.le, h.end_le⟩, hfile, fun _ ↦ ?_, fun hfails ↦ absurd hfails hnot⟩
  have hrest : (BufferedReader.mk file r.buff (r.beginPos + (r.endPos - r.beginPos))
      r.endPos).buffered = [] := buffered_of_le hempty.ge
  simp only [Outcome.bytes, hrest]
  rw [← h.length_buffered, take_patch_patch, List.nil_append, List.append_assoc, hunread]

/-- What is in the buffer is returned, and the beginning of what is then read into the buffer. -/
theorem reads_refill (h : r.Valid) {call : Call} (hnot : ¬Fails r call) {file : FileFd}
    {bytes : List UInt8} (hle : bytes.length ≤ r.buff.length) (hfile : file.bytes = r.file.bytes)
    (hunread : bytes ++ file.unread = r.file.unread) (size : ℕ) :
    Reads r call ⟨.ok (min bytes.length size + (r.endPos - r.beginPos)),
      patch (patch call.slice 0 r.buffered) (r.endPos - r.beginPos)
        ((patch r.buff 0 bytes).take (min bytes.length size)),
      { r with
        file := file, buff := patch r.buff 0 bytes, beginPos := min bytes.length size,
        endPos := bytes.length }⟩ := by
  have hleft : min bytes.length size ≤ bytes.length := Nat.min_le_left _ _
  have hlength : (patch r.buff 0 bytes).length = r.buff.length := length_patch (by omega)
  refine ⟨⟨hleft, hle.trans hlength.ge⟩, hfile, fun _ ↦ ?_, fun hfails ↦ absurd hfails hnot⟩
  have htake : (patch r.buff 0 bytes).take (min bytes.length size) =
      bytes.take (min bytes.length size) := by
    rw [patch_zero, List.take_append_of_le_length hleft]
  have hrest : (BufferedReader.mk file (patch r.buff 0 bytes) (min bytes.length size)
      bytes.length).buffered = bytes.drop (min bytes.length size) := by
    rw [buffered, patch_zero, List.drop_append_of_le_length hleft, List.take_left' List.length_drop]
  have hreturned := take_patch_patch call.slice r.buffered (bytes.take (min bytes.length size))
  rw [List.length_take_of_le hleft, h.length_buffered] at hreturned
  simp only [Outcome.bytes, htake, hreturned, hrest]
  rw [List.append_assoc, ← List.append_assoc (bytes.take _), List.take_append_drop, hunread]

theorem read_spec (h : r.Valid) (call : Call) :
    Reads r call (r.read call.slice call.answer) := by
  simp only [read]
  split_ifs with hserved hdirect
  · exact reads_served h hserved
  · split
    · next error file hread =>
      obtain ⟨hanswer, rfl⟩ := read_file_error hread
      exact reads_error h hanswer (not_le.1 hserved) _
    · next bytes file hread =>
      obtain ⟨hanswer, -, hfile, hunread⟩ := read_file hread
      exact reads_direct h (fun hfails ↦ hanswer _ hfails.1.choose_spec) hfile hunread
  · split
    · next error file hread =>
      obtain ⟨hanswer, rfl⟩ := read_file_error hread
      exact reads_error h hanswer (not_le.1 hserved) _
    · next bytes file hread =>
      obtain ⟨hanswer, hle, hfile, hunread⟩ := read_file hread
      exact reads_refill h (fun hfails ↦ hanswer _ hfails.1.choose_spec) hle hfile hunread _

/-! ## Runs -/

/-- The bytes that have been returned are the beginning of the file, and what follows them is in the
buffer or has not been read yet. -/
def Accounts (content output : List UInt8) (r : BufferedReader) : Prop :=
  output <+: content ∧ output ++ (r.buffered ++ r.file.unread) = content

/-- A read fails, when there is something in the buffer. -/
def Loses (r : BufferedReader) (call : Call) : Prop :=
  (∃ error, call.answer = .error error) ∧ r.beginPos < r.endPos ∧
    r.endPos - r.beginPos < call.slice.length

variable {content output : List UInt8}

theorem accounts_iff :
    Accounts content output r ↔ output ++ (r.buffered ++ r.file.unread) = content :=
  and_iff_right_of_imp fun h ↦ h ▸ List.prefix_append _ _

/-- A read goes on with the file, unless it loses what is in the buffer. -/
theorem accounts_read (h : r.Valid) (haccounts : Accounts content output r) (call : Call) :
    Accounts content (output ++ (r.read call.slice call.answer).bytes)
      (r.read call.slice call.answer).reader ↔ ¬Loses r call := by
  have hreads := read_spec h call
  rw [accounts_iff] at haccounts
  rw [accounts_iff, List.append_assoc]
  by_cases hfails : Fails r call
  · obtain ⟨hbytes, hempty, hunread⟩ := hreads.fails hfails
    have hbuffered : r.buffered = [] ↔ ¬r.beginPos < r.endPos := by
      rw [← List.length_eq_zero_iff, h.length_buffered]
      omega
    rw [hbytes, hempty, hunread, ← haccounts, List.append_right_inj, List.nil_append,
      List.nil_append, List.self_eq_append_left, hbuffered, Loses]
    exact not_congr ⟨fun hlt ↦ ⟨hfails.1, hlt, hfails.2⟩, fun hloses ↦ hloses.2.1⟩
  · rw [hreads.next hfails]
    exact iff_of_true haccounts fun hloses ↦ hfails ⟨hloses.1, hloses.2.2⟩

theorem run_from (h : r.Valid) (haccounts : Accounts content output r) (calls : List Call) :
    (∀ done, done <+: calls → Accounts content (run r output done).2 (run r output done).1) ↔
      ∀ done call, done ++ [call] <+: calls → ¬Loses (run r output done).1 call := by
  induction calls generalizing r output with
  | nil =>
    simp only [List.prefix_nil]
    refine iff_of_true (fun done hdone ↦ ?_) fun done call hdone ↦ absurd hdone (by simp)
    rw [hdone]
    exact haccounts
  | cons call calls ih =>
    have hstep := accounts_read h haccounts call
    have hnext (hnot : ¬Loses r call) := ih (read_spec h call).valid (hstep.2 hnot)
    constructor
    · intro hall
      have hnot : ¬Loses r call := hstep.1 (hall [call] (by simp))
      intro done call' hdone
      cases done with
      | nil =>
        obtain ⟨rfl, -⟩ := List.cons_prefix_cons.1 hdone
        exact hnot
      | cons call'' done =>
        obtain ⟨rfl, htail⟩ := List.cons_prefix_cons.1 hdone
        exact (hnext hnot).1 (fun done hdone ↦
          hall (_ :: done) (List.cons_prefix_cons.2 ⟨rfl, hdone⟩)) done call' htail
    · intro hall done hdone
      cases done with
      | nil => exact haccounts
      | cons call' done =>
        obtain ⟨rfl, htail⟩ := List.cons_prefix_cons.1 hdone
        have hnot : ¬Loses r call' := hall [] call' (by simp)
        exact (hnext hnot).2 (fun done call hdone ↦
          hall (_ :: done) call (List.cons_prefix_cons.2 ⟨rfl, hdone⟩)) done htail

/-- In a run from the beginning of a file the reads return the bytes of the file, one after another,
and none is lost, exactly if no read fails when there is something in the buffer. -/
theorem run_accounts (content : List UInt8) (buffSize : ℕ) (calls : List Call) :
    (∀ done, done <+: calls →
      Accounts content (run (new ⟨content, 0⟩ buffSize) [] done).2
        (run (new ⟨content, 0⟩ buffSize) [] done).1) ↔
      ∀ done call, done ++ [call] <+: calls →
        ¬Loses (run (new ⟨content, 0⟩ buffSize) [] done).1 call :=
  run_from ⟨le_rfl, Nat.zero_le _⟩ (accounts_iff.2 rfl) calls

/-- The second read finds one byte in the buffer, and the file fails: the third one goes on behind
this byte. -/
theorem run_loses :
    ¬(run (new ⟨[1, 2, 3], 0⟩ 2) [] [⟨[0], .bytes 2⟩, ⟨[0, 0], .error "Read has failed"⟩,
      ⟨[0], .bytes 1⟩]).2 <+: [1, 2, 3] := by
  decide

end BufferedReader

end PxcCore
