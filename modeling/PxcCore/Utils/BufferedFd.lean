import PxcCore.Utils.Buffer.Frame

/-!
# Buffered sockets

`BufferedFd`: what a socket delivers goes through a chain of buffers to its owner, and what the
owner writes goes through another one to the socket.  The socket is the environment: it says how
often it is ready, and each of its answers is a number of bytes or an error.
-/

namespace PxcCore.BufferedFd

open Lib Buffer

/-! ## The socket -/

/-- An answer to `read`.  No more bytes are delivered than there is room for. -/
inductive ReadResult where
  | error
  | bytes (bytes : List UInt8)
deriving DecidableEq

/-- An answer to `writev`.  No more bytes are accepted than there are. -/
inductive WriteResult where
  | error
  | count (count : ℕ)
deriving DecidableEq

/-- What `flush_read` and `flush_write` return. -/
inductive Flushed where
  | error
  | count (result : ℕ)
deriving DecidableEq

/-! ## `BufferedFdBase` -/

/-- The loop of `BufferedFdBase::flush_read`.  The socket is ready once for each of its answers.
The bytes that it delivers are given out too. -/
def flushReadLoop : List ReadResult → ChainBufferWriter → Buffer.Memory → ℕ → ℕ →
    Except Fault (Flushed × List UInt8 × ChainBufferWriter × Buffer.Memory)
  | [], read, m, _, result => return (.count result, [], read, m)
  | answer :: answers, read, m, maxRead, result =>
    if maxRead = 0 then return (.count result, [], read, m)
    else do
      let (room, read, m) ← read.prepareAppend m 0
      let room := min room maxRead
      match answer with
      | .error => return (.error, [], read, m)
      | .bytes bytes =>
        let x := bytes.take room
        let m ← read.confirmAppend m x
        let (flushed, rest, read, m) ←
          flushReadLoop answers read m (maxRead - x.length) (result + x.length)
        return (flushed, x ++ rest, read, m)

/-- `BUF_SIZE` -/
def bufSize : ℕ := 20

/-- The slices that a clone of the reader shows one after another. -/
def gather (m : Buffer.Memory) : ℕ → ChainBufferReader → Except Fault (List (List UInt8))
  | 0, _ => return []
  | n + 1, it => do
    let (slice, it) ← it.prepareRead m
    if slice = [] then return []
    let it ← it.confirmRead slice.length
    let rest ← gather m n it
    return slice :: rest

/-- The loop of `BufferedFdBase::flush_write`, where `write_` is the reader 1.  The bytes that the
socket accepts are given out too. -/
def flushWriteLoop : List WriteResult → World → ℕ → Except Fault (Flushed × List UInt8 × World)
  | answers, w, result => do
    let write ← lookup w.readers 1
    if write.empty then return (.count result, [], w)
    match answers with
    | [] => return (.count result, [], w)
    | answer :: answers =>
      let buf ← gather w.memory bufSize write
      match answer with
      | .error => return (.error, [], w)
      | .count count =>
        let x := min count buf.flatten.length
        let (_, w) ← w.step (.advance 1 x 0)
        let (flushed, rest, w) ← flushWriteLoop answers w (result + x)
        return (flushed, buf.flatten.take x ++ rest, w)

/-! ## `BufferedFd` -/

/-- `BufferedFd()`.  The writer 0 and the reader 0 are `input_writer_` and `input_reader_`, the
writer 1 and the reader 1 are `output_writer_` and `output_reader_`. -/
def new : Except Fault World := do
  let (_, w) ← runProgram World.step
    [.createWriter, .createWriter, .extractReader 0, .extractReader 1] {}
  return w

/-- `flush_read`, with the bytes that the socket has delivered. -/
def flushRead (w : World) (maxRead : ℕ) (answers : List ReadResult) :
    Except Fault (Flushed × List UInt8 × World) := do
  let writer ← lookup w.writers 0
  let (flushed, delivered, writer, m) ← flushReadLoop answers writer w.memory maxRead 0
  let w := { w with memory := m, writers := w.writers.set 0 writer }
  match flushed with
  | .error => return (.error, delivered, w)
  | .count result =>
    if result = 0 then return (.count result, delivered, w)
    let (_, w) ← w.step (.syncWithWriter 0)
    return (.count result, delivered, w)

/-- `flush_write`, with the bytes that the socket has accepted. -/
def flushWrite (w : World) (answers : List WriteResult) :
    Except Fault (Flushed × List UInt8 × World) := do
  let (_, w) ← w.step (.syncWithWriter 1)
  flushWriteLoop answers w 0

/-! ## Sessions -/

/-- What the owner may do: the writer of the input and the reader of the output belong to the
`BufferedFd` alone, its writers stay where they are, and so does the reader of the input. -/
def ofOwner : Op → Bool
  | .destroyWriter c => 1 < c
  | .append c _ _ => c ≠ 0
  | .appendBufferSlice c _ => c ≠ 0
  | .appendReader c r => c ≠ 0 && r ≠ 1
  | .confirmRead r _ => r ≠ 1
  | .advance r _ _ => r ≠ 1
  | .cutHead r _ => r ≠ 1
  | .readAsBufferSlice r _ => r ≠ 1
  | .moveAsBufferSlice r => 1 < r
  | _ => true

/-- What happens to a `BufferedFd`. -/
inductive Call where
  | buffer (op : {op : Op // ofOwner op})
  | flushRead (maxRead : ℕ) (answers : List ReadResult)
  | flushWrite (answers : List WriteResult)
deriving DecidableEq

/-- The objects, and the bytes that the socket delivered, that the owner consumed, that the owner
appended, and that the socket accepted. -/
structure Session where
  world : World
  delivered : List UInt8 := []
  consumed : List UInt8 := []
  appended : List UInt8 := []
  accepted : List UInt8 := []

namespace Session

/-- The bytes that became visible in the input buffer. -/
def visible (s : Session) : List UInt8 := s.consumed ++ s.world.contents 0

/-- The bytes that were consumed between two states. -/
def consumedBetween (w w' : World) (r : ℕ) : List UInt8 :=
  (w.contents r).take ((w.contents r).length - (w'.contents r).length)

/-- One call. -/
def step (s : Session) : Call → Except Fault (Option Flushed × Session)
  | .buffer op => do
    let (_, w) ← s.world.step op.1
    return (none, { s with
      world := w
      consumed := s.consumed ++ consumedBetween s.world w 0
      appended := s.appended ++ s.world.pushed op.1 1 })
  | .flushRead maxRead answers => do
    let (flushed, delivered, w) ← BufferedFd.flushRead s.world maxRead answers
    return (some flushed, { s with world := w, delivered := s.delivered ++ delivered })
  | .flushWrite answers => do
    let (flushed, accepted, w) ← BufferedFd.flushWrite s.world answers
    return (some flushed, { s with world := w, accepted := s.accepted ++ accepted })

end Session

/-- A session of these calls. -/
def run (calls : List Call) : Except Fault (List (Option Flushed) × Session) := do
  let w ← new
  runProgram Session.step calls { world := w }

/-! ## Pipes -/

/-- The channel of this number has these bytes, and its reader has read the first of them. -/
structure Pipe (f : Fifo) (c : ℕ) (bytes taken : List UInt8) : Prop where
  channel : ∃ ch, f.channels[c]? = some ch ∧ ch.isOpen = true ∧ ch.bytes = bytes
  reader : ∃ cur, f.readers[c]? = some cur ∧ cur.channel = some c ∧ cur.sync = true ∧
    taken = bytes.take cur.window.pos

namespace Pipe

variable {f f' : Fifo} {c : ℕ} {bytes taken : List UInt8} {op : Op} {out : Out}

theorem bytes_eq (h : Pipe f c bytes taken) : f.bytes (some c) = bytes := by
  obtain ⟨ch, hch, -, rfl⟩ := h.channel
  exact f.bytes_of_eq hch

/-- The bytes of a pipe that were read and those that can be read. -/
theorem taken_append_available (h : Pipe f c bytes taken) (hf : f.Ok) :
    ∃ cur, f.readers[c]? = some cur ∧
      taken ++ f.available c = bytes.take cur.window.stop := by
  obtain ⟨cur, hcur, hchannel, -, rfl⟩ := h.reader
  have hok := hf cur (List.mem_of_getElem? hcur)
  refine ⟨cur, hcur, ?_⟩
  rw [Fifo.available_of_eq hcur, Fifo.unread, hchannel, h.bytes_eq, Window.read_eq_take_drop,
    ← List.take_add, Nat.add_sub_cancel' hok.within.pos_le]

theorem visible_mono (h : Pipe f c bytes taken) (hf : f.Ok) :
    taken ++ f.available c <+: bytes := by
  obtain ⟨cur, -, heq⟩ := h.taken_append_available hf
  rw [heq]
  exact List.take_prefix _ _

/-- An operation appends bytes to a pipe, and its reader takes those that are consumed. -/
theorem step (h : Pipe f c bytes taken) (hf : f.Ok) (hstep : Fifo.Step f op out f')
    (hwriter : op ≠ .destroyWriter c) (hreader : op ≠ .moveAsBufferSlice c) :
    Pipe f' c (bytes ++ f.pushed op c) (taken ++ (f.available c).take
      ((f.available c).length - (f'.available c).length)) := by
  obtain ⟨ch, hch, hopen, rfl⟩ := h.channel
  obtain ⟨cur, hcur, hchannel, hsync, rfl⟩ := h.reader
  obtain ⟨ch', hch', hbytes, hopen'⟩ := hstep.channel hch hwriter
  obtain ⟨cur', hcur', hreads⟩ := hstep.reads hf hcur hreader
  have hok := hf cur (List.mem_of_getElem? hcur)
  have hstop := hok.within.stop_le
  have hle := hok.within.pos_le
  rw [hchannel, h.bytes_eq] at hstop
  refine ⟨⟨ch', hch', hopen'.trans hopen, hbytes⟩,
    ⟨cur', hcur', hreads.channel_eq.trans hchannel, hreads.sync_eq.trans hsync, ?_⟩⟩
  rw [Fifo.available_of_eq hcur, Fifo.available_of_eq hcur']
  have hunread : f.unread cur = (ch.bytes.drop cur.window.pos).take
      (cur.window.stop - cur.window.pos) := by
    rw [Fifo.unread, hchannel, h.bytes_eq, Window.read_eq_take_drop]
  rcases hreads.unread with ⟨k, hk, hwindow, hdrop, -⟩ | ⟨-, hwindow, hmono⟩
  · have hdiff : (f.unread cur).length - (f'.unread cur').length = k := by
      rw [hdrop, List.length_drop]
      omega
    have hk' : k ≤ cur.window.stop - cur.window.pos := by
      rw [hunread, List.length_take] at hk
      exact hk.trans (Nat.min_le_left _ _)
    have hpos : cur.window.pos + k ≤ ch.bytes.length := by omega
    rw [hdiff, hwindow, hunread, List.take_take, Nat.min_eq_left hk', ← List.take_add]
    exact (List.take_append_of_le_length hpos).symm
  · have hdiff : (f.unread cur).length - (f'.unread cur').length = 0 :=
      Nat.sub_eq_zero_of_le hmono.length_le
    rw [hdiff, hwindow, List.take_zero, List.append_nil, Window.extend,
      List.take_append_of_le_length (hle.trans hstop)]

/-- An operation that consumes nothing of a pipe. -/
theorem keep (h : Pipe f c bytes taken) (hf : f.Ok) (hstep : Fifo.Step f op out f')
    (hwriter : op ≠ .destroyWriter c) (hreader : op.consumed ≠ some c) :
    Pipe f' c (bytes ++ f.pushed op c) taken := by
  have hmove : op ≠ .moveAsBufferSlice c := fun heq ↦ hreader (by rw [heq, Op.consumed])
  have hmono := hstep.available_mono hf hreader
  have hpipe := h.step hf hstep hwriter hmove
  rwa [Nat.sub_eq_zero_of_le hmono.length_le, List.take_zero, List.append_nil] at hpipe

/-- An operation that has nothing to do with a pipe. -/
theorem untouched (h : Pipe f c bytes taken) (hf : f.Ok) (hstep : Fifo.Step f op out f')
    (hwriter : op ≠ .destroyWriter c) (hreader : op.consumed ≠ some c)
    (hpushed : f.pushed op c = []) : Pipe f' c bytes taken := by
  have hpipe := h.keep hf hstep hwriter hreader
  rwa [hpushed, List.append_nil] at hpipe

/-- After `sync_with_writer` all bytes of the pipe can be read. -/
theorem synced (h : Pipe f c bytes taken) (hf : f.Ok)
    (hstep : Fifo.Step f (.syncWithWriter c) out f') :
    Pipe f' c bytes taken ∧ taken ++ f'.available c = bytes := by
  have hpipe := h.untouched hf hstep (by simp) (by simp [Op.consumed]) rfl
  refine ⟨hpipe, ?_⟩
  obtain ⟨cur', hcur', heq⟩ := hpipe.taken_append_available (hstep.ok hf)
  obtain ⟨cur, hcur, hchannel, hsync, -⟩ := h.reader
  rw [heq]
  refine List.take_of_length_le ?_
  cases hstep with
  | @syncWithWriter _ cur₀ reader =>
    obtain rfl := Option.some.inj (reader.symm.trans hcur)
    have hlt := (List.getElem?_eq_some_iff.mp hcur).1
    rw [if_pos hsync, hchannel, h.bytes_eq] at hcur'
    rw [List.getElem?_set_self hlt, Option.some.injEq] at hcur'
    rw [← hcur']
    exact le_refl _

end Pipe

/-! ## Reading from the socket -/

/-- What the socket delivers is appended to the channel of the writer. -/
theorem flushReadLoop_spec (answers : List ReadResult) :
    ∀ {m : Buffer.Memory} {ns : List ℕ} {read : ChainBufferWriter} {ch : Channel}
      (maxRead result : ℕ), m.Ok → WriterAt m ns read ch → ch.isOpen = true →
    ∃ flushed bytes read' m' ns', flushReadLoop answers read m maxRead result =
        .ok (flushed, bytes, read', m') ∧ m'.Ok ∧
      WriterAt m' ns' read' { ch with bytes := ch.bytes ++ bytes } ∧ Extends m ns m' ns' := by
  induction answers with
  | nil =>
    intro m ns read ch maxRead result hm hw hopen
    exact ⟨_, [], read, m, ns, rfl, hm, by simpa using hw, .refl⟩
  | cons answer answers ih =>
    intro m ns read ch maxRead result hm hw hopen
    by_cases hmax : maxRead = 0
    · exact ⟨.count result, [], read, m, ns, by simp [flushReadLoop, hmax], hm, by simpa using hw,
        .refl⟩
    obtain ⟨room, m₁, ns₁, read₁, hprep, hpos, hroom, hm₁, hw₁, hext₁⟩ :=
      hw.prepareAppend_spec hm hopen 0
    cases answer with
    | error =>
      exact ⟨.error, [], read₁, m₁, ns₁, by simp [flushReadLoop, hmax, hprep], hm₁,
        by simpa using hw₁, hext₁⟩
    | bytes bytes =>
      set x := bytes.take (min room maxRead) with hx
      have hle : x.length ≤ BufferWriter.prepareAppend m₁ read₁.writer := by
        rw [hroom, hx, List.length_take]
        exact (Nat.min_le_left _ _).trans (Nat.min_le_left _ _)
      obtain ⟨m₂, hconfirm, hm₂, hw₂, hext₂⟩ :=
        hw₁.confirmAppend_spec hm₁ hopen x (hroom.symm ▸ hpos) hle
      obtain ⟨flushed, rest, read', m', ns', hrun, hm', hw', hext'⟩ :=
        ih (maxRead - x.length) (result + x.length) hm₂ hw₂ hopen
      refine ⟨flushed, x ++ rest, read', m', ns', ?_, hm', ?_, (hext₁.trans hext₂).trans hext'⟩
      · simp only [flushReadLoop, hmax, if_false, hprep, ok_bind, ← hx, hconfirm, hrun, pure_eq_ok]
      · simpa only [List.append_assoc] using hw'

/-- The objects of a session stand for two pipes. -/
structure Inv (s : Session) (chains : ℕ → List ℕ) (f : Fifo) : Prop where
  models : Models s.world chains f
  input : Pipe f 0 s.delivered s.consumed
  output : Pipe f 1 s.appended s.accepted

namespace Inv

variable {s : Session} {chains : ℕ → List ℕ} {f : Fifo}

theorem visible_eq (h : Inv s chains f) : s.visible = s.consumed ++ f.available 0 := by
  rw [Session.visible, h.models.contents_eq]

/-- `flush_read` -/
theorem flushRead_spec (h : Inv s chains f) (maxRead : ℕ) (answers : List ReadResult) :
    ∃ flushed s', s.step (.flushRead maxRead answers) = .ok (some flushed, s') ∧
      (∃ chains' f', Inv s' chains' f') ∧
      ∀ n, flushed = .count n → n ≠ 0 → s'.visible = s'.delivered := by
  obtain ⟨ch, hch, hopen, hbytes⟩ := h.input.channel
  obtain ⟨wr, ch', hwr, hch', hat⟩ | ⟨-, hnone⟩ := h.models.lookup_writer 0
  swap
  · cases hch.symm.trans hnone
  obtain rfl := Option.some.inj (hch.symm.trans hch')
  obtain ⟨flushed, bytes, wr', m', ns', hrun, hm', hat', hext⟩ :=
    flushReadLoop_spec answers maxRead 0 h.models.memory hat hopen
  -- the bytes are appended to the channel of the input
  have hmodels := h.models.setWriter hch hopen hm' hat' hext (List.prefix_append _ _)
  have hstep : Fifo.Step f (.append 0 bytes 0) .unit (f.push 0 ch bytes) := .append bytes 0 hch
  have hinput : Pipe (f.push 0 ch bytes) 0 (s.delivered ++ bytes) s.consumed :=
    h.input.keep h.models.fifo hstep (by simp) (by simp [Op.consumed])
  have houtput := h.output.untouched h.models.fifo hstep (by simp) (by simp [Op.consumed]) rfl
  have hlookup := lookup_of_eq hwr
  cases flushed with
  | error =>
    refine ⟨.error, { s with
      world := { s.world with memory := m', writers := s.world.writers.set 0 wr' }
      delivered := s.delivered ++ bytes }, ?_, ⟨_, _, hmodels, hinput, houtput⟩, by simp⟩
    simp [Session.step, flushRead, hlookup, hrun]
  | count result =>
    by_cases hzero : result = 0
    · refine ⟨.count result, { s with
        world := { s.world with memory := m', writers := s.world.writers.set 0 wr' }
        delivered := s.delivered ++ bytes }, ?_, ⟨_, _, hmodels, hinput, houtput⟩, ?_⟩
      · simp [Session.step, flushRead, hlookup, hrun, hzero]
      · rintro n heq hn
        exact absurd ((Flushed.count.inj heq).symm.trans hzero) hn
    · obtain ⟨cur, hcur, -⟩ := hinput.reader
      have hallowed : Fifo.Allowed (f.push 0 ch bytes) (.syncWithWriter 0) :=
        (List.getElem?_eq_some_iff.mp hcur).1
      obtain ⟨out, w', f', chains', hsync, hstep', hmodels'⟩ := hmodels.step_of_allowed hallowed
      obtain ⟨hinput', heq⟩ := hinput.synced hmodels.fifo hstep'
      have houtput' :=
        houtput.untouched hmodels.fifo hstep' (by simp) (by simp [Op.consumed]) rfl
      have hinv : Inv { s with world := w', delivered := s.delivered ++ bytes } chains' f' :=
        ⟨hmodels', hinput', houtput'⟩
      exact ⟨.count result, { s with world := w', delivered := s.delivered ++ bytes },
        by simp [Session.step, flushRead, hlookup, hrun, hzero, hsync], ⟨chains', f', hinv⟩,
        fun _ _ _ ↦ hinv.visible_eq.trans heq⟩

end Inv

/-! ## Writing to the socket -/

/-- What is gathered is what the reader would read first. -/
theorem gather_spec {m : Buffer.Memory} {ks : List ℕ} {isOpen : Bool} (hm : m.Ok)
    (hc : Chain m ks isOpen) (n : ℕ) : ∀ {it : ChainBufferReader} {cur : Buffer.Cursor},
    ReaderAt m ks isOpen it cur → cur.window.Within (stream m ks) →
    ∃ buf, gather m n it = .ok buf ∧ buf.flatten <+: cur.window.read (stream m ks) := by
  induction n with
  | zero => exact fun _ _ ↦ ⟨[], rfl, List.nil_prefix⟩
  | succ n ih =>
    intro it cur h hw
    obtain ⟨slice, it₁, hprep, hshown, -, h₁⟩ := h.prepareRead_spec hm hc
    by_cases hnil : slice = []
    · exact ⟨[], by simp [gather, hprep, hnil], List.nil_prefix⟩
    obtain ⟨hle, it₂, hconfirm, h₂⟩ | ⟨-, hlt⟩ :=
      h₁.confirmRead_spec hm hc hw hshown.length_le slice.length
    swap
    · exact absurd hlt (lt_irrefl _)
    obtain ⟨buf, hrun, hbuf⟩ := ih h₂ (hw.skip hle)
    refine ⟨slice :: buf, by simp [gather, hprep, hnil, hconfirm, hrun], ?_⟩
    have hrest : (cur.window.skip slice.length).read (stream m ks) =
        (cur.window.read (stream m ks)).drop slice.length := Window.read_skip _ _ _
    obtain ⟨back, hback⟩ := hshown
    obtain ⟨back', hback'⟩ := hrest ▸ hbuf
    refine ⟨back', ?_⟩
    rw [List.flatten_cons, List.append_assoc, hback', ← hback, List.drop_left]

namespace Inv

variable {s : Session} {chains : ℕ → List ℕ} {f : Fifo}

/-- The reader of the output is advanced over what the socket accepted. -/
theorem advance_spec (h : Inv s chains f) (hall : s.accepted ++ f.available 1 = s.appended) {x : ℕ}
    (hx : x ≤ (f.available 1).length) : ∃ out w' chains' f',
      s.world.step (.advance 1 x 0) = .ok (out, w') ∧
      Inv { s with world := w', accepted := s.accepted ++ (f.available 1).take x } chains' f' ∧
      (s.accepted ++ (f.available 1).take x) ++ f'.available 1 = s.appended := by
  obtain ⟨cur, hcur, -⟩ := h.output.reader
  have hallowed : f.Allowed (.advance 1 x 0) :=
    ⟨cur, hcur, Fifo.available_of_eq hcur ▸ hx⟩
  obtain ⟨out, w', f', chains', hrun, hstep, hmodels⟩ := h.models.step_of_allowed hallowed
  have hdrop : f'.available 1 = (f.available 1).drop x := by
    have hlt := (List.getElem?_eq_some_iff.mp hcur).1
    cases hstep with
    | @advance _ cur₀ _ _ reader enough =>
      obtain rfl := Option.some.inj (reader.symm.trans hcur)
      rw [Fifo.available_of_eq (List.getElem?_set_self hlt), Fifo.available_of_eq hcur]
      exact Window.read_skip _ _ _
  have hinput := h.input.untouched h.models.fifo hstep (by simp) (by simp [Op.consumed]) rfl
  have houtput := h.output.step h.models.fifo hstep (by simp) (by simp)
  have hpushed : f.pushed (.advance 1 x 0) 1 = [] := rfl
  rw [hpushed, List.append_nil, hdrop, List.length_drop, Nat.sub_sub_self hx] at houtput
  refine ⟨out, w', chains', f', hrun, ⟨hmodels, hinput, houtput⟩, ?_⟩
  rw [hdrop, List.append_assoc, List.take_append_drop, hall]

/-- What the socket accepts and what is left are together what was appended. -/
theorem flushWriteLoop_spec (answers : List WriteResult) : ∀ {s : Session} {chains : ℕ → List ℕ}
    {f : Fifo} (result : ℕ), Inv s chains f → s.accepted ++ f.available 1 = s.appended →
    ∃ flushed bytes w' chains' f', flushWriteLoop answers s.world result =
        .ok (flushed, bytes, w') ∧
      Inv { s with world := w', accepted := s.accepted ++ bytes } chains' f' ∧
      (s.accepted ++ bytes) ++ f'.available 1 = s.appended := by
  induction answers with
  | nil =>
    intro s chains f result h hall
    obtain ⟨rd, cur, hrd, -⟩ | ⟨-, hnone⟩ := h.models.lookup_reader 1
    swap
    · obtain ⟨cur, hcur, -⟩ := h.output.reader
      cases hcur.symm.trans hnone
    refine ⟨.count result, [], s.world, chains, f, ?_, by simpa using h, by simpa using hall⟩
    rw [flushWriteLoop, lookup_of_eq hrd, ok_bind]
    split_ifs <;> rfl
  | cons answer answers ih =>
    intro s chains f result h hall
    obtain ⟨rd, cur, hrd, hcur, hok, hchain, hstream, hreader⟩ | ⟨-, hnone⟩ :=
      h.models.lookup_reader 1
    swap
    · obtain ⟨cur, hcur, -⟩ := h.output.reader
      cases hcur.symm.trans hnone
    have hlookup := lookup_of_eq hrd
    by_cases hempty : rd.empty
    · refine ⟨.count result, [], s.world, chains, f, ?_, by simpa using h, by simpa using hall⟩
      rw [flushWriteLoop, hlookup, ok_bind, if_pos hempty]
      rfl
    obtain ⟨buf, hgather, hbuf⟩ :=
      gather_spec h.models.memory hchain bufSize hreader (hstream.symm ▸ hok.within)
    have havailable : cur.window.read (stream s.world.memory (nodesOf chains cur.channel)) =
        f.available 1 := by
      rw [hstream, Fifo.available_of_eq hcur, Fifo.unread]
    rw [havailable] at hbuf
    cases answer with
    | error =>
      refine ⟨.error, [], s.world, chains, f, ?_, by simpa using h, by simpa using hall⟩
      rw [flushWriteLoop, hlookup, ok_bind, if_neg hempty, hgather]
      rfl
    | count count =>
      set x := min count buf.flatten.length with hx
      have hxbuf : x ≤ buf.flatten.length := Nat.min_le_right _ _
      have htake : (f.available 1).take x = buf.flatten.take x := by
        obtain ⟨back, hback⟩ := hbuf
        rw [← hback, List.take_append_of_le_length hxbuf]
      obtain ⟨out, w', chains', f', hadvance, hinv, hall'⟩ :=
        h.advance_spec hall (hxbuf.trans hbuf.length_le)
      rw [htake] at hinv hall'
      obtain ⟨flushed, bytes, w'', chains'', f'', hrun, hinv', hall''⟩ :=
        ih (result + x) hinv hall'
      refine ⟨flushed, buf.flatten.take x ++ bytes, w'', chains'', f'', ?_, ?_, ?_⟩
      · rw [flushWriteLoop, hlookup, ok_bind, if_neg hempty, hgather]
        simp only [ok_bind, ← hx, hadvance, hrun, pure_eq_ok]
      · simpa only [List.append_assoc] using hinv'
      · simpa only [List.append_assoc] using hall''

/-- `flush_write` -/
theorem flushWrite_spec (h : Inv s chains f) (answers : List WriteResult) :
    ∃ flushed s', s.step (.flushWrite answers) = .ok (some flushed, s') ∧
      (∃ chains' f', Inv s' chains' f') ∧ s'.accepted ++ s'.world.contents 1 = s'.appended := by
  obtain ⟨cur, hcur, -⟩ := h.output.reader
  have hallowed : f.Allowed (.syncWithWriter 1) := (List.getElem?_eq_some_iff.mp hcur).1
  obtain ⟨out, w₁, f₁, chains₁, hsync, hstep, hmodels⟩ := h.models.step_of_allowed hallowed
  obtain ⟨houtput, hall⟩ := h.output.synced h.models.fifo hstep
  have hinput := h.input.untouched h.models.fifo hstep (by simp) (by simp [Op.consumed]) rfl
  have hinv : Inv { s with world := w₁ } chains₁ f₁ := ⟨hmodels, hinput, houtput⟩
  obtain ⟨flushed, bytes, w', chains', f', hrun, hinv', hall'⟩ :=
    flushWriteLoop_spec answers 0 hinv hall
  refine ⟨flushed, { s with world := w', accepted := s.accepted ++ bytes }, ?_,
    ⟨chains', f', hinv'⟩, ?_⟩
  · simp [Session.step, flushWrite, hsync, hrun]
  · rw [hinv'.models.contents_eq]
    exact hall'

end Inv

/-! ## Operations of the owner -/

section Owner

variable {op : Op} (h : ofOwner op)

include h

theorem ne_destroyWriter_of_ofOwner {c : ℕ} (hc : c ≤ 1) : op ≠ .destroyWriter c := by
  rintro rfl
  rw [ofOwner, decide_eq_true_eq] at h
  omega

theorem ne_moveAsBufferSlice_of_ofOwner : op ≠ .moveAsBufferSlice 0 := by
  rintro rfl
  cases h

theorem consumed_of_ofOwner : op.consumed ≠ some 1 := by
  cases op with
  | moveAsBufferSlice r =>
    rw [ofOwner, decide_eq_true_eq] at h
    exact fun heq ↦ Nat.ne_of_gt h (Option.some.inj heq)
  | _ => simp_all [ofOwner, Op.consumed]

theorem pushed_of_ofOwner (f : Fifo) : f.pushed op 0 = [] := by
  cases op <;> simp_all [ofOwner, Fifo.pushed]

end Owner

namespace Inv

variable {s : Session} {chains : ℕ → List ℕ} {f : Fifo}

/-- An operation of the owner. -/
theorem buffer_spec (h : Inv s chains f) {op : {op : Op // ofOwner op}} {out : Option Flushed}
    {s' : Session} (hrun : s.step (.buffer op) = .ok (out, s')) :
    ∃ chains' f', Inv s' chains' f' := by
  obtain ⟨⟨out', w'⟩, hop, hret⟩ := bind_eq_ok.1 hrun
  cases hret
  obtain ⟨chains', f', hstep, hmodels⟩ := h.models.of_step hop
  have hinput := h.input.step h.models.fifo hstep
    (ne_destroyWriter_of_ofOwner op.2 (Nat.zero_le 1)) (ne_moveAsBufferSlice_of_ofOwner op.2)
  have houtput := h.output.keep h.models.fifo hstep
    (ne_destroyWriter_of_ofOwner op.2 (le_refl 1)) (consumed_of_ofOwner op.2)
  rw [pushed_of_ofOwner op.2, List.append_nil, ← h.models.contents_eq,
    ← hmodels.contents_eq] at hinput
  rw [← h.models.pushed_eq] at houtput
  exact ⟨chains', f', hmodels, hinput, houtput⟩

/-- One call. -/
theorem step (h : Inv s chains f) {call : Call} {out : Option Flushed} {s' : Session}
    (hrun : s.step call = .ok (out, s')) : ∃ chains' f', Inv s' chains' f' := by
  cases call with
  | buffer op => exact h.buffer_spec hrun
  | flushRead maxRead answers =>
    obtain ⟨flushed, s₁, hstep, hinv, -⟩ := h.flushRead_spec maxRead answers
    cases hrun.symm.trans hstep
    exact hinv
  | flushWrite answers =>
    obtain ⟨flushed, s₁, hstep, hinv, -⟩ := h.flushWrite_spec answers
    cases hrun.symm.trans hstep
    exact hinv

end Inv

/-- The constructor. -/
theorem new_spec : ∃ w, new = .ok w ∧ ∃ chains f, Inv { world := w } chains f := by
  obtain ⟨out₁, w₁, f₁, chains₁, hrun₁, hstep₁, h₁⟩ :=
    Models.init.step_of_allowed (show Fifo.Allowed {} .createWriter from trivial)
  cases hstep₁
  obtain ⟨out₂, w₂, f₂, chains₂, hrun₂, hstep₂, h₂⟩ :=
    h₁.step_of_allowed (show Fifo.Allowed _ .createWriter from trivial)
  cases hstep₂
  obtain ⟨out₃, w₃, f₃, chains₃, hrun₃, hstep₃, h₃⟩ :=
    h₂.step_of_allowed (show Fifo.Allowed _ (.extractReader 0) from ⟨{}, rfl, rfl⟩)
  cases hstep₃ with
  | extractReader channel₃ head₃ =>
  cases channel₃
  obtain ⟨out₄, w₄, f₄, chains₄, hrun₄, hstep₄, h₄⟩ :=
    h₃.step_of_allowed (show Fifo.Allowed _ (.extractReader 1) from ⟨{}, rfl, rfl⟩)
  cases hstep₄ with
  | extractReader channel₄ head₄ =>
  cases channel₄
  refine ⟨w₄, by simp [new, runProgram, hrun₁, hrun₂, hrun₃, hrun₄], chains₄, _, h₄,
    ⟨⟨_, rfl, rfl, rfl⟩, ⟨_, rfl, rfl, rfl, rfl⟩⟩, ⟨⟨_, rfl, rfl, rfl⟩, ⟨_, rfl, rfl, rfl, rfl⟩⟩⟩

/-- Every session keeps its two pipes. -/
theorem inv_of_run {calls : List Call} {outs : List (Option Flushed)} {s : Session}
    (hrun : run calls = .ok (outs, s)) : ∃ chains f, Inv s chains f := by
  obtain ⟨w, hnew, hinv⟩ := new_spec
  rw [run, hnew, ok_bind] at hrun
  have hruns := runs_of_runProgram hrun fun _ _ _ ↦ trivial
  refine hruns.invariant (P := fun s ↦ ∃ chains f, Inv s chains f) ?_ hinv
  rintro t call out t' ⟨chains, f, h⟩ ⟨-, hstep⟩
  exact h.step hstep

/-- In every session the bytes that the socket accepted are the first ones of those that were
appended, and the bytes that became visible in the input buffer the first ones of those that it
delivered.  The next `flush_write` returns and leaves what the socket did not accept, whether it
fails or not, and after a `flush_read` that returns a number other than zero all bytes are
visible. -/
theorem session_spec {calls : List Call} {outs : List (Option Flushed)} {s : Session}
    (hrun : run calls = .ok (outs, s)) :
    s.accepted <+: s.appended ∧ s.visible <+: s.delivered ∧
    (∀ answers, ∃ flushed s', s.step (.flushWrite answers) = .ok (some flushed, s') ∧
      s'.accepted ++ s'.world.contents 1 = s'.appended) ∧
    ∀ maxRead answers, ∃ flushed s',
      s.step (.flushRead maxRead answers) = .ok (some flushed, s') ∧
      ∀ n, flushed = .count n → n ≠ 0 → s'.visible = s'.delivered := by
  obtain ⟨chains, f, hinv⟩ := inv_of_run hrun
  refine ⟨?_, ?_, fun answers ↦ ?_, fun maxRead answers ↦ ?_⟩
  · obtain ⟨cur, -, -, -, htaken⟩ := hinv.output.reader
    rw [htaken]
    exact List.take_prefix _ _
  · rw [hinv.visible_eq]
    exact hinv.input.visible_mono hinv.models.fifo
  · obtain ⟨flushed, s', hstep, -, hall⟩ := hinv.flushWrite_spec answers
    exact ⟨flushed, s', hstep, hall⟩
  · obtain ⟨flushed, s', hstep, -, hall⟩ := hinv.flushRead_spec maxRead answers
    exact ⟨flushed, s', hstep, hall⟩

/-- The socket accepts one of three bytes before it fails, and two bytes that it delivers before it
fails become visible with a third one, after the owner has consumed one. -/
def interrupted : List Call :=
  [.buffer ⟨.append 1 [1, 2, 3] 0, rfl⟩, .flushWrite [.count 1, .error],
    .flushRead 9 [.bytes [4]], .flushRead 9 [.bytes [5, 6], .error],
    .buffer ⟨.advance 0 1 0, rfl⟩, .flushRead 9 [.bytes [], .bytes [7]]]

theorem session_spec_interrupted : ∃ outs s, run interrupted = .ok (outs, s) ∧
    s.accepted <+: s.appended ∧ s.visible <+: s.delivered ∧
    (∀ answers, ∃ flushed s', s.step (.flushWrite answers) = .ok (some flushed, s') ∧
      s'.accepted ++ s'.world.contents 1 = s'.appended) ∧
    ∀ maxRead answers, ∃ flushed s',
      s.step (.flushRead maxRead answers) = .ok (some flushed, s') ∧
      ∀ n, flushed = .count n → n ≠ 0 → s'.visible = s'.delivered := by
  have hok : (run interrupted).isOk := by decide +kernel
  obtain ⟨⟨outs, s⟩, hrun⟩ := exists_of_isOk hok
  exact ⟨outs, s, hrun, session_spec hrun⟩

/-- What the socket has seen of it, and what has become visible. -/
example : (run interrupted).toOption.map (fun s ↦
    (s.2.accepted, s.2.appended, s.2.visible, s.2.delivered)) =
    some ([1], [1, 2, 3], [4, 5, 6, 7], [4, 5, 6, 7]) := by decide +kernel

end PxcCore.BufferedFd
