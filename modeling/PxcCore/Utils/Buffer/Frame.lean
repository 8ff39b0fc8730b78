import PxcCore.Utils.Buffer.Run

/-!
# What an operation leaves alone

How one operation changes a channel and a reader: a channel only gets longer, and a reader only
moves over bytes that it could read, or sees what was appended.
-/

namespace PxcCore.Buffer

open Lib

/-! ## The bytes of a reader -/

/-- The bytes that a clone of a reader would read. -/
def ChainBufferReader.contents (m : Memory) (rd : ChainBufferReader) : List UInt8 :=
  match rd.advance m rd.size rd.size with
  | .ok (_, copied, _) => copied
  | .error _ => []

theorem ReaderAt.contents_eq {m : Memory} {ks : List ℕ} {isOpen : Bool} {rd : ChainBufferReader}
    {cur : Cursor} (hm : m.Ok) (hc : Chain m ks isOpen) (h : ReaderAt m ks isOpen rd cur)
    (hw : cur.window.Within (stream m ks)) :
    rd.contents m = cur.window.read (stream m ks) := by
  have hsize := h.size_eq hw
  rcases h.advance_spec hm hc hw rd.size rd.size with ⟨-, rd', hrun, -⟩ | ⟨-, hlt⟩
  · rw [ChainBufferReader.contents, hrun, hsize]
    simp only [List.take_length]
  · exact absurd hlt (Nat.not_lt.mpr hsize.le)

/-! ## Operations -/

/-- The reader whose bytes an operation consumes. -/
def Op.consumed : Op → Option ℕ
  | .appendReader _ r => some r
  | .confirmRead r _ => some r
  | .advance r _ _ => some r
  | .cutHead r _ => some r
  | .readAsBufferSlice r _ => some r
  | .moveAsBufferSlice r => some r
  | _ => none

namespace Fifo

variable {f f' : Fifo} {op : Op} {out : Out} {c r : ℕ} {ch : Channel} {cur : Cursor}

/-- The bytes that a reader can still read, if there is one of this number. -/
def available (f : Fifo) (r : ℕ) : List UInt8 :=
  match f.readers[r]? with
  | none => []
  | some cur => f.unread cur

/-- The bytes that an operation appends to a channel. -/
def pushed (f : Fifo) (op : Op) (c : ℕ) : List UInt8 :=
  match op with
  | .append d slice _ => if d = c then slice else []
  | .appendBufferSlice d s => if d = c then f.slices[s]?.getD [] else []
  | .appendReader d r => if d = c then f.available r else []
  | _ => []

theorem available_of_eq (h : f.readers[r]? = some cur) : f.available r = f.unread cur := by
  rw [available, h]

/-- One channel gets longer. -/
theorem channels_set {d : ℕ} {ch₀ ch₁ : Channel} {x : List UInt8}
    (hch : f.channels[c]? = some ch) (hd : f.channels[d]? = some ch₀)
    (hbytes : ch₁.bytes = ch₀.bytes ++ x) (hopen : d = c → ch₁.isOpen = ch₀.isOpen) :
    ∃ ch', (f.channels.set d ch₁)[c]? = some ch' ∧
      ch'.bytes = ch.bytes ++ (if d = c then x else []) ∧ ch'.isOpen = ch.isOpen := by
  have hlt := (List.getElem?_eq_some_iff.mp hd).1
  by_cases heq : d = c
  · subst heq
    obtain rfl := Option.some.inj (hd.symm.trans hch)
    exact ⟨ch₁, List.getElem?_set_self hlt, by rw [if_pos rfl, hbytes], hopen rfl⟩
  · exact ⟨ch, by rw [List.getElem?_set_ne heq, hch], by rw [if_neg heq, List.append_nil], rfl⟩

/-- An operation appends its bytes to a channel, which stays open if its writer is kept. -/
theorem Step.channel (h : Step f op out f') (hch : f.channels[c]? = some ch)
    (hop : op ≠ .destroyWriter c) : ∃ ch', f'.channels[c]? = some ch' ∧
      ch'.bytes = ch.bytes ++ f.pushed op c ∧ ch'.isOpen = ch.isOpen := by
  have hsame (hpushed : f.pushed op c = []) (hchannels : f'.channels[c]? = some ch) :
      ∃ ch', f'.channels[c]? = some ch' ∧ ch'.bytes = ch.bytes ++ f.pushed op c ∧
        ch'.isOpen = ch.isOpen :=
    ⟨ch, hchannels, by rw [hpushed, List.append_nil], rfl⟩
  have hlt := (List.getElem?_eq_some_iff.mp hch).1
  cases h with
  | createWriter => exact hsame rfl (by rw [List.getElem?_append_left hlt, hch])
  | @destroyWriter d ch₀ channel =>
    have hne : d ≠ c := fun heq ↦ hop (by rw [heq])
    exact hsame rfl (by rw [List.getElem?_set_ne hne, hch])
  | append slice hint channel => exact channels_set hch channel rfl fun _ ↦ rfl
  | appendBufferSlice channel slice =>
    rw [pushed, slice, Option.getD_some]
    exact channels_set hch channel rfl fun _ ↦ rfl
  | appendReader channel reader =>
    rw [pushed, available_of_eq reader]
    exact channels_set hch channel rfl fun _ ↦ rfl
  | @extractReader d ch₀ channel head =>
    have hbytes : ({ ch₀ with hasHead := false } : Channel).bytes = ch₀.bytes ++ [] :=
      (List.append_nil _).symm
    obtain ⟨ch', hch', hbytes', hopen⟩ := channels_set hch channel hbytes fun _ ↦ rfl
    exact ⟨ch', hch', by simpa [pushed] using hbytes', hopen⟩
  | createSlice | cloneSlice | truncateSlice | confirmSlice | syncWithWriter | size | prepareRead
  | confirmRead | advance | cutHead | readAsBufferSlice | clone | moveAsBufferSlice =>
    exact hsame rfl hch

/-- How an operation moves the window of a reader. -/
structure Moves (f : Fifo) (op : Op) (r : ℕ) (cur cur' : Cursor) : Prop where
  channel_eq : cur'.channel = cur.channel
  sync_eq : cur'.sync = cur.sync
  window : (∃ k ≤ (f.unread cur).length, cur'.window = cur.window.skip k ∧
      (op.consumed ≠ some r → k = 0)) ∨
    (op.consumed ≠ some r ∧ cur'.window = cur.window.extend (f.bytes cur.channel))

theorem Moves.refl (f : Fifo) (op : Op) (r : ℕ) (cur : Cursor) : f.Moves op r cur cur :=
  ⟨rfl, rfl, .inl ⟨0, Nat.zero_le _, rfl, fun _ ↦ rfl⟩⟩

/-- One reader is exchanged. -/
theorem readers_set {s : ℕ} {cur₀ cur₁ : Cursor} (hcur : f.readers[r]? = some cur)
    (hs : f.readers[s]? = some cur₀) (hmoves : s = r → f.Moves op r cur₀ cur₁) :
    ∃ cur', (f.readers.set s cur₁)[r]? = some cur' ∧ f.Moves op r cur cur' := by
  have hlt := (List.getElem?_eq_some_iff.mp hs).1
  by_cases heq : s = r
  · subst heq
    obtain rfl := Option.some.inj (hs.symm.trans hcur)
    exact ⟨cur₁, List.getElem?_set_self hlt, hmoves rfl⟩
  · exact ⟨cur, by rw [List.getElem?_set_ne heq, hcur], .refl f op r cur⟩

/-- An operation moves the window of a reader, if it does not take the reader away. -/
theorem Step.moves (h : Step f op out f') (hcur : f.readers[r]? = some cur)
    (hop : op ≠ .moveAsBufferSlice r) :
    ∃ cur', f'.readers[r]? = some cur' ∧ f.Moves op r cur cur' := by
  have hlt := (List.getElem?_eq_some_iff.mp hcur).1
  -- the window of the reader of an operation that consumes `k` bytes
  have htake {op : Op} {s k : ℕ} {cur₀ cur₁ : Cursor} (hs : op.consumed = some s)
      (hk : k ≤ (f.unread cur₀).length) (hwindow : cur₁.window = cur₀.window.skip k)
      (hchannel : cur₁.channel = cur₀.channel) (hsync : cur₁.sync = cur₀.sync) (heq : s = r) :
      f.Moves op r cur₀ cur₁ :=
    ⟨hchannel, hsync, .inl ⟨k, hk, hwindow, fun hne ↦ absurd (heq ▸ hs) hne⟩⟩
  cases h with
  | createWriter | destroyWriter | append | appendBufferSlice | createSlice | cloneSlice
  | truncateSlice | confirmSlice | size => exact ⟨cur, hcur, .refl f _ r cur⟩
  | appendReader channel reader =>
    exact readers_set hcur reader (htake rfl (le_refl _) rfl rfl rfl)
  | extractReader channel head =>
    exact ⟨cur, by rw [List.getElem?_append_left hlt, hcur], .refl f _ r cur⟩
  | @syncWithWriter s cur₀ reader =>
    refine readers_set hcur reader fun _ ↦ ?_
    split_ifs
    · exact ⟨rfl, rfl, .inr ⟨by simp [Op.consumed], rfl⟩⟩
    · exact .refl f _ r cur₀
  | prepareRead reader shown nonempty =>
    exact readers_set hcur reader fun _ ↦ ⟨rfl, rfl, .inl ⟨0, Nat.zero_le _, rfl, fun _ ↦ rfl⟩⟩
  | confirmRead reader enough =>
    exact readers_set hcur reader (htake rfl enough rfl rfl rfl)
  | advance dest reader enough => exact readers_set hcur reader (htake rfl enough rfl rfl rfl)
  | @cutHead s cur₀ offset reader enough =>
    obtain ⟨cur', hcur', hmoves⟩ : ∃ cur',
        (f.readers.set s (cur₀.startAt (cur₀.window.skip offset)))[r]? = some cur' ∧
          f.Moves (.cutHead s offset) r cur cur' :=
      readers_set hcur reader (htake rfl enough rfl rfl rfl)
    refine ⟨cur', ?_, hmoves⟩
    rw [List.getElem?_append_left (by rwa [List.length_set]), hcur']
  | @readAsBufferSlice s cur₀ limit b reader shown nonempty =>
    have hle : b.length ≤ (f.unread cur₀).length :=
      shown.length_le.trans (List.length_take_le' _ _)
    exact readers_set hcur reader (htake rfl hle rfl rfl rfl)
  | clone reader => exact ⟨cur, by rw [List.getElem?_append_left hlt, hcur], .refl f _ r cur⟩
  | @moveAsBufferSlice s cur₀ reader =>
    exact readers_set hcur reader fun heq ↦ absurd (by rw [heq]) hop

/-- How an operation changes what a reader can read. -/
structure Reads (f : Fifo) (op : Op) (r : ℕ) (cur : Cursor) (f' : Fifo) (cur' : Cursor) : Prop where
  channel_eq : cur'.channel = cur.channel
  sync_eq : cur'.sync = cur.sync
  unread : (∃ k ≤ (f.unread cur).length, cur'.window = cur.window.skip k ∧
      f'.unread cur' = (f.unread cur).drop k ∧ (op.consumed ≠ some r → k = 0)) ∨
    (op.consumed ≠ some r ∧ cur'.window = cur.window.extend (f.bytes cur.channel) ∧
      f.unread cur <+: f'.unread cur')

theorem Step.bytes_mono (h : Step f op out f') (hc : c < f.channels.length) :
    f.bytes (some c) <+: f'.bytes (some c) := by
  have hch := List.getElem?_eq_getElem hc
  by_cases hop : op = .destroyWriter c
  · subst hop
    cases h with
    | destroyWriter channel =>
      refine bytes_prefix_set f channel ?_ c
      exact List.prefix_refl _
  · obtain ⟨ch', hch', hbytes, -⟩ := h.channel hch hop
    rw [bytes_of_eq f hch, bytes_of_eq f' hch', hbytes]
    exact List.prefix_append _ _

/-- A reader sees the bytes behind those that were consumed, or what was appended before. -/
theorem Step.reads (h : Step f op out f') (hf : f.Ok) (hcur : f.readers[r]? = some cur)
    (hop : op ≠ .moveAsBufferSlice r) :
    ∃ cur', f'.readers[r]? = some cur' ∧ f.Reads op r cur f' cur' := by
  obtain ⟨cur', hcur', hchannel, hsync, hwindow⟩ := h.moves hcur hop
  have hok := hf cur (List.mem_of_getElem? hcur)
  refine ⟨cur', hcur', hchannel, hsync, ?_⟩
  obtain ⟨x, hx⟩ : ∃ x, f'.bytes cur.channel = f.bytes cur.channel ++ x := by
    rcases hc : cur.channel with _ | c
    · exact ⟨[], rfl⟩
    · obtain ⟨x, hx⟩ := h.bytes_mono (hok.channel_lt c hc)
      exact ⟨x, hx.symm⟩
  refine hwindow.imp ?_ ?_
  · rintro ⟨k, hk, hskip, hzero⟩
    refine ⟨k, hk, hskip, ?_, hzero⟩
    rw [unread, hchannel, hskip, hx, (hok.within.skip hk).read_append, Window.read_skip, unread]
  · rintro ⟨hop, hextend⟩
    refine ⟨hop, hextend, ?_⟩
    rw [unread, unread, hchannel, hextend, hx, hok.within.extend.read_append,
      hok.within.read_extend]
    exact List.prefix_append _ _

/-- Without consumption the bytes that can be read only get more. -/
theorem Reads.unread_mono {cur' : Cursor} (h : f.Reads op r cur f' cur')
    (hop : op.consumed ≠ some r) :
    f.unread cur <+: f'.unread cur' := by
  rcases h.unread with ⟨k, -, -, hdrop, hzero⟩ | ⟨-, -, hprefix⟩
  · rw [hdrop, hzero hop, List.drop_zero]
  · exact hprefix

/-- What is not consumed stays, and more may come behind it. -/
theorem Step.available_mono (h : Step f op out f') (hf : f.Ok) (hop : op.consumed ≠ some r) :
    f.available r <+: f'.available r := by
  rcases hcur : f.readers[r]? with _ | cur
  · rw [available, hcur]
    exact List.nil_prefix
  · have hmove : op ≠ .moveAsBufferSlice r := fun heq ↦ hop (by rw [heq, Op.consumed])
    obtain ⟨cur', hcur', hreads⟩ := h.reads hf hcur hmove
    rw [available_of_eq hcur, available_of_eq hcur']
    exact hreads.unread_mono hop

end Fifo

/-! ## Readers of a program -/

theorem lookup_eq_ok {α : Type} {objects : List α} {i : ℕ} {a : α} :
    lookup objects i = .ok a ↔ objects[i]? = some a := by
  rw [lookup]
  cases objects[i]? <;> simp

/-- The objects of a program stand for queues in every state that it reaches. -/
theorem Models.of_run {ops : List Op} {outs : List Out} {w : World}
    (h : runProgram World.step ops {} = .ok (outs, w)) : ∃ chains f, Models w chains f := by
  rcases simulates.run ops ⟨_, Models.init⟩ with ⟨outs', w', f, hrun, -, chains, hmodels⟩ |
    ⟨e, done, op, rest, outs', f, hrun, -⟩
  · cases h.symm.trans hrun
    exact ⟨chains, f, hmodels⟩
  · cases h.symm.trans hrun

/-- A step of a program is a step of its queues. -/
theorem Models.of_step {w w' : World} {chains : ℕ → List ℕ} {f : Fifo} (h : Models w chains f)
    {op : Op} {out : Out} (hrun : w.step op = .ok (out, w')) :
    ∃ chains' f', Fifo.Step f op out f' ∧ Models w' chains' f' := by
  rcases step_spec h op with ⟨out', w'', f', chains', hstep, hspec, h'⟩ | ⟨e, hstep, -⟩
  · cases hrun.symm.trans hstep
    exact ⟨chains', f', hspec, h'⟩
  · cases hrun.symm.trans hstep

/-- An operation that is allowed is carried out. -/
theorem Models.step_of_allowed {w : World} {chains : ℕ → List ℕ} {f : Fifo}
    (h : Models w chains f) {op : Op} (hop : f.Allowed op) : ∃ out w' f' chains',
      w.step op = .ok (out, w') ∧ Fifo.Step f op out f' ∧ Models w' chains' f' := by
  rcases step_spec h op with hok | ⟨e, -, -, hallowed⟩
  · exact hok
  · exact absurd hop hallowed

/-- The bytes that a clone of a reader of a program would read, if there is one of this number. -/
def World.contents (w : World) (r : ℕ) : List UInt8 :=
  match w.readers[r]? with
  | none => []
  | some rd => rd.contents w.memory

theorem Models.contents_eq {w : World} {chains : ℕ → List ℕ} {f : Fifo} (h : Models w chains f)
    (r : ℕ) : w.contents r = f.available r := by
  rcases h.lookup_reader r with ⟨rd, cur, hrd, hcur, hok, hchain, hstream, hreader⟩ | ⟨hrd, hcur⟩
  · simp only [World.contents, hrd, Fifo.available, hcur]
    rw [hreader.contents_eq h.memory hchain (hstream.symm ▸ hok.within), hstream, Fifo.unread]
  · simp only [World.contents, hrd, Fifo.available, hcur]

/-- The bytes that an operation appends to what a writer has written. -/
def World.pushed (w : World) (op : Op) (c : ℕ) : List UInt8 :=
  match op with
  | .append d slice _ => if d = c then slice else []
  | .appendBufferSlice d s =>
    if d = c then (w.slices[s]?.map (·.asSlice w.memory)).getD [] else []
  | .appendReader d r => if d = c then w.contents r else []
  | _ => []

theorem Models.pushed_eq {w : World} {chains : ℕ → List ℕ} {f : Fifo} (h : Models w chains f)
    (op : Op) (c : ℕ) : w.pushed op c = f.pushed op c := by
  cases op with
  | appendBufferSlice d s =>
    rcases forall₂_lookup h.slices s with ⟨sl, b, hsl, hb, -, hbytes⟩ | ⟨hsl, hb⟩
    · simp only [World.pushed, Fifo.pushed, hsl, hb, Option.map_some, Option.getD_some, hbytes]
    · simp only [World.pushed, Fifo.pushed, hsl, hb, Option.map_none]
  | appendReader d r => simp only [World.pushed, Fifo.pushed, h.contents_eq]
  | _ => rfl

end PxcCore.Buffer
