import PxcCore.Lib.Simulation
import PxcCore.Lib.Window

/-!
# Byte queues

What the chains of `buffer.h` are for, without nodes and buffers: a channel is the list of all bytes
appended to it, and a reader is a window of this list.
-/

namespace PxcCore.Buffer

open Lib

/-! ## Operations -/

/-- The operations of a program on its writers, readers and slices.  Objects are numbered in the
order of their creation; `appendBufferSlice` and `moveAsBufferSlice` leave an empty object. -/
inductive Op where
  | createWriter
  | destroyWriter (c : ℕ)
  | append (c : ℕ) (slice : List UInt8) (hint : ℕ)
  | appendBufferSlice (c s : ℕ)
  | appendReader (c r : ℕ)
  | extractReader (c : ℕ)
  | createSlice (bytes : List UInt8)
  | cloneSlice (s : ℕ)
  | truncateSlice (s limit : ℕ)
  | confirmSlice (s size : ℕ)
  | syncWithWriter (r : ℕ)
  | size (r : ℕ)
  | prepareRead (r : ℕ)
  | confirmRead (r size : ℕ)
  | advance (r offset dest : ℕ)
  | cutHead (r offset : ℕ)
  | readAsBufferSlice (r limit : ℕ)
  | clone (r : ℕ)
  | moveAsBufferSlice (r : ℕ)
deriving DecidableEq, Repr

/-- What an operation gives back. -/
inductive Out where
  | unit
  | size (size : ℕ)
  | slice (bytes : List UInt8)
  | advanced (skipped : ℕ) (copied : List UInt8)
deriving DecidableEq, Repr

/-! ## Queues -/

/-- A channel: all bytes appended so far, whether more can come, and whether the writer still has
the reader that `extract_reader` gives. -/
structure Channel where
  bytes : List UInt8 := []
  isOpen : Bool := true
  hasHead : Bool := true
deriving DecidableEq, Repr

/-- A reader of a channel.  It has got the bytes from `start` up to its window, and `ready` of the
bytes in the window were shown to it last. -/
structure Cursor where
  channel : Option ℕ := none
  window : Window := {}
  sync : Bool := true
  ready : ℕ := 0
  start : ℕ := 0
  got : List UInt8 := []
deriving DecidableEq, Repr

namespace Cursor

/-- The cursor after it got the first `k` bytes of its window. -/
def take (cur : Cursor) (bytes : List UInt8) (k : ℕ) : Cursor :=
  { cur with
    window := cur.window.skip k
    ready := 0
    got := cur.got ++ (cur.window.read bytes).take k }

/-- A cursor that begins at a window and has got nothing yet. -/
def startAt (cur : Cursor) (window : Window) : Cursor :=
  { cur with window := window, ready := 0, start := window.pos, got := [] }

end Cursor

/-- Channels, readers and slices. -/
structure Fifo where
  channels : List Channel := []
  readers : List Cursor := []
  slices : List (List UInt8) := []
deriving DecidableEq, Repr

namespace Fifo

/-- The bytes of a channel, if there is one. -/
def bytes (f : Fifo) (channel : Option ℕ) : List UInt8 :=
  match channel with
  | none => []
  | some c => (f.channels[c]?.getD {}).bytes

/-- The bytes that a reader can still read. -/
def unread (f : Fifo) (cur : Cursor) : List UInt8 := cur.window.read (f.bytes cur.channel)

/-- A channel with these bytes appended to it. -/
def push (f : Fifo) (c : ℕ) (ch : Channel) (slice : List UInt8) : Fifo :=
  { f with channels := f.channels.set c { ch with bytes := ch.bytes ++ slice } }

/-- A reader that got the first `k` bytes of those that it can still read. -/
def read (f : Fifo) (r : ℕ) (cur : Cursor) (k : ℕ) : Fifo :=
  { f with readers := f.readers.set r (cur.take (f.bytes cur.channel) k) }

/-- What an operation does, and what it gives back.  What `prepare_read` and `read_as_buffer_slice`
show may end before the bytes that can be read do, but is empty only if there are none. -/
inductive Step (f : Fifo) : Op → Out → Fifo → Prop where
  | createWriter : Step f .createWriter .unit { f with channels := f.channels ++ [{}] }
  | destroyWriter {c : ℕ} {ch : Channel} (channel : f.channels[c]? = some ch) :
    Step f (.destroyWriter c) .unit
      { f with channels := f.channels.set c { ch with isOpen := false, hasHead := false } }
  | append {c : ℕ} {ch : Channel} (slice : List UInt8) (hint : ℕ)
    (channel : f.channels[c]? = some ch) :
    Step f (.append c slice hint) .unit (f.push c ch slice)
  | appendBufferSlice {c s : ℕ} {ch : Channel} {b : List UInt8}
    (channel : f.channels[c]? = some ch) (slice : f.slices[s]? = some b) :
    Step f (.appendBufferSlice c s) .unit { f.push c ch b with slices := f.slices.set s [] }
  | appendReader {c r : ℕ} {ch : Channel} {cur : Cursor} (channel : f.channels[c]? = some ch)
    (reader : f.readers[r]? = some cur) :
    Step f (.appendReader c r) .unit
      { f.push c ch (f.unread cur) with
        readers := (f.read r cur (f.unread cur).length).readers }
  | extractReader {c : ℕ} {ch : Channel} (channel : f.channels[c]? = some ch)
    (head : ch.hasHead = true) :
    Step f (.extractReader c) .unit
      { f with
        channels := f.channels.set c { ch with hasHead := false }
        readers := f.readers ++
          [{ channel := some c, window := { pos := 0, stop := ch.bytes.length } }] }
  | createSlice (b : List UInt8) :
    Step f (.createSlice b) .unit { f with slices := f.slices ++ [b] }
  | cloneSlice {s : ℕ} {b : List UInt8} (slice : f.slices[s]? = some b) :
    Step f (.cloneSlice s) .unit { f with slices := f.slices ++ [b] }
  | truncateSlice {s : ℕ} {b : List UInt8} (limit : ℕ) (slice : f.slices[s]? = some b) :
    Step f (.truncateSlice s limit) .unit { f with slices := f.slices.set s (b.take limit) }
  | confirmSlice {s : ℕ} {b : List UInt8} (size : ℕ) (slice : f.slices[s]? = some b) :
    Step f (.confirmSlice s size) .unit { f with slices := f.slices.set s (b.drop size) }
  | syncWithWriter {r : ℕ} {cur : Cursor} (reader : f.readers[r]? = some cur) :
    Step f (.syncWithWriter r) .unit
      { f with
        readers := f.readers.set r
          (if cur.sync then { cur with window := cur.window.extend (f.bytes cur.channel) }
          else cur) }
  | size {r : ℕ} {cur : Cursor} (reader : f.readers[r]? = some cur) :
    Step f (.size r) (.size (f.unread cur).length) f
  | prepareRead {r : ℕ} {cur : Cursor} {b : List UInt8} (reader : f.readers[r]? = some cur)
    (shown : b <+: f.unread cur) (nonempty : b = [] → f.unread cur = []) :
    Step f (.prepareRead r) (.slice b)
      { f with readers := f.readers.set r { cur with ready := b.length } }
  | confirmRead {r : ℕ} {cur : Cursor} {size : ℕ} (reader : f.readers[r]? = some cur)
    (enough : size ≤ (f.unread cur).length) :
    Step f (.confirmRead r size) .unit
      { f with
        readers := f.readers.set r
          { cur.take (f.bytes cur.channel) size with ready := cur.ready - size } }
  | advance {r : ℕ} {cur : Cursor} {offset : ℕ} (dest : ℕ) (reader : f.readers[r]? = some cur)
    (enough : offset ≤ (f.unread cur).length) :
    Step f (.advance r offset dest)
      (.advanced offset (((f.unread cur).take offset).take dest)) (f.read r cur offset)
  | cutHead {r : ℕ} {cur : Cursor} {offset : ℕ} (reader : f.readers[r]? = some cur)
    (enough : offset ≤ (f.unread cur).length) :
    Step f (.cutHead r offset) .unit
      { f with
        readers := f.readers.set r (cur.startAt (cur.window.skip offset)) ++
          [{ cur.startAt (cur.window.first offset) with sync := false }] }
  | readAsBufferSlice {r : ℕ} {cur : Cursor} {limit : ℕ} {b : List UInt8}
    (reader : f.readers[r]? = some cur) (shown : b <+: (f.unread cur).take limit)
    (nonempty : b = [] → (f.unread cur).take limit = []) :
    Step f (.readAsBufferSlice r limit) (.slice b)
      { f.read r cur b.length with slices := f.slices ++ [b] }
  | clone {r : ℕ} {cur : Cursor} (reader : f.readers[r]? = some cur) :
    Step f (.clone r) .unit { f with readers := f.readers ++ [cur.startAt cur.window] }
  | moveAsBufferSlice {r : ℕ} {cur : Cursor} (reader : f.readers[r]? = some cur) :
    Step f (.moveAsBufferSlice r) (.slice (f.unread cur))
      { f with readers := f.readers.set r {}, slices := f.slices ++ [f.unread cur] }

/-- What a program must keep to: its objects exist, a writer that it appends to is not destroyed,
`extract_reader` is called once, and no more bytes are consumed than there are, or than the last
`prepare_read` has shown. -/
def Allowed (f : Fifo) : Op → Prop
  | .createWriter => True
  | .destroyWriter c => c < f.channels.length
  | .append c _ _ => ∃ ch, f.channels[c]? = some ch ∧ ch.isOpen = true
  | .appendBufferSlice c s =>
    (∃ ch, f.channels[c]? = some ch ∧ ch.isOpen = true) ∧ s < f.slices.length
  | .appendReader c r =>
    (∃ ch, f.channels[c]? = some ch ∧ ch.isOpen = true) ∧ r < f.readers.length
  | .extractReader c => ∃ ch, f.channels[c]? = some ch ∧ ch.hasHead = true
  | .createSlice _ => True
  | .cloneSlice s => s < f.slices.length
  | .truncateSlice s _ => s < f.slices.length
  | .confirmSlice s size => ∃ b, f.slices[s]? = some b ∧ size ≤ b.length
  | .syncWithWriter r => r < f.readers.length
  | .size r => r < f.readers.length
  | .prepareRead r => r < f.readers.length
  | .confirmRead r size => ∃ cur, f.readers[r]? = some cur ∧ size ≤ cur.ready
  | .advance r offset _ => ∃ cur, f.readers[r]? = some cur ∧ offset ≤ (f.unread cur).length
  | .cutHead r offset => ∃ cur, f.readers[r]? = some cur ∧ offset ≤ (f.unread cur).length
  | .readAsBufferSlice r _ => r < f.readers.length
  | .clone r => r < f.readers.length
  | .moveAsBufferSlice r => r < f.readers.length

end Fifo

/-! ## What readers get -/

/-- A reader got exactly the bytes from its start up to its window, and its window is a piece of its
channel. -/
structure Cursor.Ok (f : Fifo) (cur : Cursor) : Prop where
  channel_lt : ∀ c, cur.channel = some c → c < f.channels.length
  within : cur.window.Within (f.bytes cur.channel)
  start_le : cur.start ≤ cur.window.pos
  got_eq : cur.got = ((f.bytes cur.channel).take cur.window.pos).drop cur.start
  ready_le : cur.ready ≤ (f.unread cur).length

/-- All readers are as they should be. -/
def Fifo.Ok (f : Fifo) : Prop := ∀ cur ∈ f.readers, cur.Ok f

namespace Cursor.Ok

variable {f f' : Fifo} {cur : Cursor}

/-- What a reader got and what it can still read are, in this order, the bytes of the channel from
its start up to where the channel ended when the reader was synchronized last. -/
theorem got_append_unread (h : cur.Ok f) :
    cur.got ++ f.unread cur = ((f.bytes cur.channel).take cur.window.stop).drop cur.start := by
  have hpos := h.within.pos_le
  have hlen : ((f.bytes cur.channel).take cur.window.pos).length = cur.window.pos := by
    rw [List.length_take, Nat.min_eq_left (hpos.trans h.within.stop_le)]
  have hsplit : (f.bytes cur.channel).take cur.window.stop =
      (f.bytes cur.channel).take cur.window.pos ++ f.unread cur := by
    rw [Fifo.unread, Window.read_eq_take_drop, ← List.take_add, Nat.add_sub_cancel' hpos]
  rw [hsplit, List.drop_append_of_le_length (hlen.symm ▸ h.start_le), h.got_eq]

/-- A reader does not see what is appended. -/
theorem grow (h : cur.Ok f) (hlen : f.channels.length ≤ f'.channels.length)
    (hbytes : ∀ c < f.channels.length, f.bytes (some c) <+: f'.bytes (some c)) :
    cur.Ok f' ∧ f'.unread cur = f.unread cur := by
  obtain ⟨x, hx⟩ : ∃ x, f'.bytes cur.channel = f.bytes cur.channel ++ x := by
    rcases hc : cur.channel with _ | c
    · exact ⟨[], rfl⟩
    · obtain ⟨x, hx⟩ := hbytes c (h.channel_lt c hc)
      exact ⟨x, hx.symm⟩
  have hunread : f'.unread cur = f.unread cur := by
    rw [Fifo.unread, hx, h.within.read_append, Fifo.unread]
  refine ⟨⟨fun c hc ↦ (h.channel_lt c hc).trans_le hlen, hx ▸ h.within.append x, h.start_le, ?_,
    hunread ▸ h.ready_le⟩, hunread⟩
  rw [hx, List.take_append_of_le_length (h.within.pos_le.trans h.within.stop_le)]
  exact h.got_eq

/-- A reader gets the first bytes of its window. -/
theorem take (h : cur.Ok f) {k : ℕ} (hk : k ≤ (f.unread cur).length) :
    (cur.take (f.bytes cur.channel) k).Ok f where
  channel_lt := h.channel_lt
  within := h.within.skip hk
  start_le := h.start_le.trans (Nat.le_add_right _ _)
  got_eq := by
    have hlen : ((f.bytes cur.channel).take cur.window.pos).length = cur.window.pos := by
      rw [List.length_take, Nat.min_eq_left (h.within.pos_le.trans h.within.stop_le)]
    have hk' : k ≤ cur.window.stop - cur.window.pos := by
      rw [← h.within.length_read]
      exact hk
    show cur.got ++ _ = ((f.bytes cur.channel).take (cur.window.pos + k)).drop cur.start
    rw [List.take_add, List.drop_append_of_le_length (hlen.symm ▸ h.start_le), h.got_eq,
      Window.read_eq_take_drop, List.take_take, Nat.min_eq_left hk']
  ready_le := Nat.zero_le _

theorem ready (h : cur.Ok f) {k : ℕ} (hk : k ≤ (f.unread cur).length) :
    { cur with ready := k }.Ok f :=
  ⟨h.channel_lt, h.within, h.start_le, h.got_eq, hk⟩

theorem startAt (h : cur.Ok f) {w : Window} (hw : w.Within (f.bytes cur.channel)) (sync : Bool) :
    { cur.startAt w with sync := sync }.Ok f :=
  ⟨h.channel_lt, hw, le_refl _, by simp [Cursor.startAt], Nat.zero_le _⟩

/-- Other readers do not matter. -/
theorem readers (h : cur.Ok f) (readers : List Cursor) : cur.Ok { f with readers := readers } :=
  ⟨h.channel_lt, h.within, h.start_le, h.got_eq, h.ready_le⟩

theorem extend (h : cur.Ok f) :
    { cur with window := cur.window.extend (f.bytes cur.channel) }.Ok f where
  channel_lt := h.channel_lt
  within := h.within.extend
  start_le := h.start_le
  got_eq := h.got_eq
  ready_le := by
    refine h.ready_le.trans ?_
    show _ ≤ ((cur.window.extend _).read _).length
    rw [h.within.read_extend, List.length_append]
    exact Nat.le_add_right _ _

end Cursor.Ok

namespace Fifo

theorem bytes_set (f : Fifo) {c : ℕ} {ch : Channel} (hc : f.channels[c]? = some ch)
    (ch' : Channel) (d : ℕ) : ({ f with channels := f.channels.set c ch' } : Fifo).bytes (some d) =
      if c = d then ch'.bytes else f.bytes (some d) := by
  obtain ⟨hlt, -⟩ := List.getElem?_eq_some_iff.mp hc
  simp only [bytes, List.getElem?_set]
  by_cases hcd : c = d
  · subst hcd
    simp [hlt]
  · simp [hcd]

theorem bytes_of_eq (f : Fifo) {c : ℕ} {ch : Channel} (hc : f.channels[c]? = some ch) :
    f.bytes (some c) = ch.bytes := by
  simp [bytes, hc]

/-- A channel only gets longer. -/
theorem bytes_prefix_set (f : Fifo) {c : ℕ} {ch ch' : Channel} (hc : f.channels[c]? = some ch)
    (hbytes : ch.bytes <+: ch'.bytes) (d : ℕ) :
    f.bytes (some d) <+: ({ f with channels := f.channels.set c ch' } : Fifo).bytes (some d) := by
  rw [bytes_set f hc]
  by_cases hcd : c = d
  · subst hcd
    rw [if_pos rfl, bytes_of_eq f hc]
    exact hbytes
  · rw [if_neg hcd]

/-- Readers and slices may be exchanged freely. -/
theorem Ok.of_channels {f f' : Fifo} (h : f.Ok) (hchannels : f'.channels = f.channels)
    (hreaders : ∀ cur ∈ f'.readers, cur ∈ f.readers ∨ cur.Ok f) : f'.Ok := by
  intro cur hcur
  have hok : cur.Ok f := (hreaders cur hcur).elim (h cur) id
  have hbytes : ∀ c, f'.bytes c = f.bytes c := fun c ↦ by
    cases c <;> simp [bytes, hchannels]
  exact (hok.grow (by rw [hchannels]) fun c _ ↦ by rw [hbytes]).1

/-- One reader is exchanged. -/
theorem Ok.set {f : Fifo} (h : f.Ok) (r : ℕ) {cur : Cursor} (hcur : cur.Ok f) :
    ({ f with readers := f.readers.set r cur } : Fifo).Ok := by
  refine h.of_channels rfl fun _ hmem ↦ ?_
  rcases List.mem_or_eq_of_mem_set hmem with hmem | rfl
  · exact .inl hmem
  · exact .inr hcur

/-- A reader is added. -/
theorem Ok.push {f : Fifo} (h : f.Ok) {cur : Cursor} (hcur : cur.Ok f) :
    ({ f with readers := f.readers ++ [cur] } : Fifo).Ok := by
  refine h.of_channels rfl fun _ hmem ↦ ?_
  rcases List.mem_append.mp hmem with hmem | hmem
  · exact .inl hmem
  · rw [List.mem_singleton.mp hmem]
    exact .inr hcur

/-- A channel gets longer. -/
theorem Ok.setChannel {f : Fifo} (h : f.Ok) {c : ℕ} {ch ch' : Channel}
    (hc : f.channels[c]? = some ch) (hbytes : ch.bytes <+: ch'.bytes) :
    ({ f with channels := f.channels.set c ch' } : Fifo).Ok := by
  intro cur hcur
  exact ((h cur hcur).grow (by simp) fun d _ ↦ bytes_prefix_set f hc hbytes d).1

/-- A reader that was not synchronized yet. -/
theorem Cursor.Ok.default (f : Fifo) : ({} : Cursor).Ok f :=
  ⟨by simp, ⟨le_refl _, Nat.zero_le _⟩, le_refl _, by simp, Nat.zero_le _⟩

/-- One operation keeps all readers as they should be. -/
theorem Step.ok {f f' : Fifo} {op : Op} {out : Out} (h : Step f op out f') (hf : f.Ok) :
    f'.Ok := by
  have hmem {r : ℕ} {cur : Cursor} (hr : f.readers[r]? = some cur) : cur.Ok f :=
    hf cur (List.mem_of_getElem? hr)
  cases h with
  | createWriter =>
    intro cur hcur
    refine ((hf cur hcur).grow (by simp) fun c hc ↦ ?_).1
    simp [bytes, List.getElem?_append_left hc]
  | destroyWriter channel => exact hf.setChannel channel (List.prefix_refl _)
  | append slice hint channel => exact hf.setChannel channel (List.prefix_append _ _)
  | appendBufferSlice channel slice =>
    exact (hf.setChannel channel (List.prefix_append _ _)).of_channels rfl fun _ ↦ .inl
  | @appendReader c r ch cur channel reader =>
    exact (hf.set r ((hmem reader).take (le_refl _))).setChannel channel (List.prefix_append _ _)
  | @extractReader c ch channel head =>
    have hnew :
        Cursor.Ok f { channel := some c, window := { pos := 0, stop := ch.bytes.length } } := by
      refine ⟨fun d hd ↦ ?_, ⟨Nat.zero_le _, ?_⟩, le_refl _, by simp, Nat.zero_le _⟩
      · cases hd
        exact (List.getElem?_eq_some_iff.mp channel).1
      · rw [bytes_of_eq f channel]
    exact (hf.push hnew).setChannel channel (List.prefix_refl _)
  | createSlice b => exact hf.of_channels rfl fun _ ↦ .inl
  | cloneSlice slice => exact hf.of_channels rfl fun _ ↦ .inl
  | truncateSlice limit slice => exact hf.of_channels rfl fun _ ↦ .inl
  | confirmSlice size slice => exact hf.of_channels rfl fun _ ↦ .inl
  | @syncWithWriter r cur reader =>
    refine hf.set r ?_
    split
    · exact (hmem reader).extend
    · exact hmem reader
  | size reader => exact hf
  | @prepareRead r cur b reader shown nonempty =>
    exact hf.set r ((hmem reader).ready shown.length_le)
  | @confirmRead r cur size reader enough =>
    refine hf.set r (((hmem reader).take enough).ready ?_)
    have hready := (hmem reader).ready_le
    show _ ≤ ((cur.window.skip size).read _).length
    rw [Window.read_skip, List.length_drop]
    exact Nat.sub_le_sub_right hready _
  | @advance r cur offset dest reader enough => exact hf.set r ((hmem reader).take enough)
  | @cutHead r cur offset reader enough =>
    have hcur := hmem reader
    exact (hf.set r (hcur.startAt (hcur.within.skip enough) cur.sync)).push
      ((hcur.startAt (hcur.within.first enough) false).readers _)
  | @readAsBufferSlice r cur limit b reader shown nonempty =>
    have hle : b.length ≤ (f.unread cur).length :=
      shown.length_le.trans (List.length_take_le' _ _)
    exact (hf.set r ((hmem reader).take hle)).of_channels rfl fun _ ↦ .inl
  | @clone r cur reader =>
    exact hf.push ((hmem reader).startAt (hmem reader).within cur.sync)
  | @moveAsBufferSlice r cur reader =>
    exact (hf.set r (Cursor.Ok.default f)).of_channels rfl fun _ ↦ .inl

/-- Every run keeps all readers as they should be. -/
theorem ok_of_runs {f f' : Fifo} {trace : List (Op × Out)} (h : Runs Step f trace f')
    (hf : f.Ok) : f'.Ok :=
  h.invariant (fun hok hstep ↦ hstep.ok hok) hf

end Fifo

end PxcCore.Buffer
