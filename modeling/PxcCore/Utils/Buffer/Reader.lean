import PxcCore.Utils.Buffer.Writer

/-!
# The reader

A reader is a window of the bytes of its chain, between its two iterators.
-/

namespace PxcCore.Buffer

open Lib

/-- A reader of the chain `ks`. -/
structure ReaderAt (m : Memory) (ks : List ℕ) (isOpen : Bool) (rd : ChainBufferReader)
    (cur : Cursor) : Prop where
  at_begin : At m ks isOpen rd.begin_
  at_end : At m ks isOpen rd.end_
  begin_eq : rd.begin_.offset = cur.window.pos
  end_eq : rd.end_.offset = cur.window.stop
  sync_eq : rd.syncFlag = cur.sync
  ready_le : cur.ready ≤ rd.begin_.reader.size

variable {m : Memory} {ks : List ℕ} {isOpen : Bool} {rd : ChainBufferReader} {cur : Cursor}

namespace ReaderAt

theorem default (m : Memory) : ReaderAt m [] false {} {} :=
  ⟨.default m, .default m, rfl, rfl, rfl, Nat.zero_le _⟩

/-- `size` -/
theorem size_eq (h : ReaderAt m ks isOpen rd cur) (hw : cur.window.Within (stream m ks)) :
    rd.size = (cur.window.read (stream m ks)).length := by
  rw [hw.length_read, ChainBufferReader.size, h.begin_eq, h.end_eq]

theorem read_eq (h : ReaderAt m ks isOpen rd cur) :
    cur.window.read (stream m ks) = ((stream m ks).drop rd.begin_.offset).take rd.size := by
  rw [Window.read_eq_take_drop, ChainBufferReader.size, h.begin_eq, h.end_eq]

/-- A reader that has read all of the chain has nothing left. -/
theorem read_eq_nil (h : ReaderAt m ks isOpen rd cur)
    (hend : rd.begin_.offset = (stream m ks).length) : cur.window.read (stream m ks) = [] := by
  rw [h.read_eq, hend, List.drop_length, List.take_nil]

/-- `prepare_read` -/
theorem prepareRead_spec (hm : m.Ok) (hc : Chain m ks isOpen) (h : ReaderAt m ks isOpen rd cur) :
    ∃ b rd', rd.prepareRead m = .ok (b, rd') ∧ b <+: cur.window.read (stream m ks) ∧
      (b = [] → cur.window.read (stream m ks) = []) ∧
      ReaderAt m ks isOpen rd' { cur with ready := b.length } := by
  obtain ⟨it', hprep, hat, hoff, hempty⟩ :=
    ChainBufferIterator.prepareRead_spec hm hc h.at_begin
  refine ⟨(it'.reader.asSlice m).take rd.size, { rd with begin_ := it' },
    by simp [ChainBufferReader.prepareRead, hprep], ?_, ?_,
    ⟨hat, h.at_end, hoff.trans h.begin_eq, h.end_eq, h.sync_eq, ?_⟩⟩
  · rw [h.read_eq, ← hoff]
    exact hat.asSlice_prefix.take _
  · intro hnil
    rcases List.take_eq_nil_iff.mp hnil with hzero | hnil
    · rw [h.read_eq, hzero, List.take_zero]
    · exact h.read_eq_nil (hempty hnil)
  · show (List.take _ _).length ≤ _
    rw [← hat.readable.length_asSlice, List.length_take]
    exact Nat.min_le_right _ _

/-- `confirm_read`, which stops the program only if more is confirmed than was shown. -/
theorem confirmRead_spec (hm : m.Ok) (hc : Chain m ks isOpen) (h : ReaderAt m ks isOpen rd cur)
    (hw : cur.window.Within (stream m ks))
    (hready : cur.ready ≤ (cur.window.read (stream m ks)).length) (size : ℕ) :
    (size ≤ (cur.window.read (stream m ks)).length ∧ ∃ rd', rd.confirmRead size = .ok rd' ∧
      ReaderAt m ks isOpen rd' { cur.take (stream m ks) size with ready := cur.ready - size }) ∨
    (rd.confirmRead size = .error .check ∧ cur.ready < size) := by
  have hsize := h.size_eq hw
  by_cases hle : size ≤ rd.size
  swap
  · exact .inr ⟨by simp [ChainBufferReader.confirmRead, hle], by omega⟩
  by_cases hshown : size ≤ rd.begin_.reader.size
  · obtain ⟨it', hconf, hat, hoff, hslice⟩ :=
      ChainBufferIterator.confirmRead_spec h.at_begin hshown
    refine .inl ⟨hsize ▸ hle, { rd with begin_ := it' },
      by simp [ChainBufferReader.confirmRead, hle, hconf], hat, h.at_end, ?_, h.end_eq, h.sync_eq,
      ?_⟩
    · show it'.offset = cur.window.pos + size
      rw [hoff, h.begin_eq]
    · show cur.ready - size ≤ it'.reader.size
      rw [← hat.readable.length_asSlice, hslice, List.length_drop,
        h.at_begin.readable.length_asSlice]
      exact Nat.sub_le_sub_right h.ready_le _
  · refine .inr ⟨?_, by have := h.ready_le; omega⟩
    -- the iterator is at a node, since there is something left to read
    have hlt : ¬rd.begin_.reader.begin_ + size ≤ rd.begin_.reader.end_ := by
      have hnull : rd.begin_.reader.isNull = false := by
        rcases h.at_begin with ⟨pre, n, post, hsplit, hn⟩ | hd
        · obtain ⟨b, hb⟩ := Option.isSome_iff_exists.mp (hm.buffer n (hc.lt n (by simp [hsplit])))
          simp [BufferSlice.isNull, hn.buffer_eq, hb]
        · have := h.read_eq_nil hd.offset_eq
          rw [this] at hsize
          simp only [List.length_nil] at hsize
          omega
      simp only [BufferSlice.size, hnull, Bool.false_eq_true, if_false] at hshown
      have := h.at_begin.readable.begin_le
      omega
    simp [ChainBufferReader.confirmRead, hle, ChainBufferIterator.confirmRead,
      BufferSlice.confirmRead, hlt]

/-- `advance` -/
theorem advance_spec (hm : m.Ok) (hc : Chain m ks isOpen) (h : ReaderAt m ks isOpen rd cur)
    (hw : cur.window.Within (stream m ks)) (offset dest : ℕ) :
    (offset ≤ (cur.window.read (stream m ks)).length ∧ ∃ rd', rd.advance m offset dest =
        .ok (offset, ((cur.window.read (stream m ks)).take offset).take dest, rd') ∧
      ReaderAt m ks isOpen rd' (cur.take (stream m ks) offset)) ∨
    (rd.advance m offset dest = .error .check ∧
      (cur.window.read (stream m ks)).length < offset) := by
  have hsize := h.size_eq hw
  by_cases hle : offset ≤ rd.size
  swap
  · exact .inr ⟨by simp [ChainBufferReader.advance, hle], by omega⟩
  obtain ⟨it', hadv, hat, hoff⟩ :=
    ChainBufferIterator.advance_spec hm hc h.at_begin offset dest
  have hstop := hw.stop_le
  have hend := h.end_eq
  have hmin : min offset ((stream m ks).length - rd.begin_.offset) = offset := by
    simp only [ChainBufferReader.size] at hle
    omega
  rw [hmin] at hadv hoff
  refine .inl ⟨hsize ▸ hle, { rd with begin_ := it' }, ?_, hat, h.at_end, ?_, h.end_eq, h.sync_eq,
    Nat.zero_le _⟩
  · have htake : (cur.window.read (stream m ks)).take offset =
        ((stream m ks).drop rd.begin_.offset).take offset := by
      rw [h.read_eq, List.take_take, Nat.min_eq_left hle]
    rw [htake]
    simp [ChainBufferReader.advance, hle, hadv]
  · show it'.offset = cur.window.pos + offset
    rw [hoff, h.begin_eq]

/-- `cut_head`: the head and the rest are the first bytes of the window and those behind them. -/
theorem cutHead_spec (hm : m.Ok) (hc : Chain m ks isOpen) (h : ReaderAt m ks isOpen rd cur)
    (hw : cur.window.Within (stream m ks)) (offset : ℕ) :
    (offset ≤ (cur.window.read (stream m ks)).length ∧ ∃ hd rd', rd.cutHead m offset =
        .ok (hd, rd') ∧
      ReaderAt m ks isOpen hd { cur.startAt (cur.window.first offset) with sync := false } ∧
      ReaderAt m ks isOpen rd' (cur.startAt (cur.window.skip offset))) ∨
    (rd.cutHead m offset = .error .check ∧
      (cur.window.read (stream m ks)).length < offset) := by
  have hsize := h.size_eq hw
  by_cases hle : offset ≤ rd.size
  swap
  · exact .inr ⟨by simp [ChainBufferReader.cutHead, hle], by omega⟩
  obtain ⟨it', hadv, hat, hoff⟩ := ChainBufferIterator.advance_spec hm hc h.at_begin offset 0
  have hstop := hw.stop_le
  have hend := h.end_eq
  have hmin : min offset ((stream m ks).length - rd.begin_.offset) = offset := by
    simp only [ChainBufferReader.size] at hle
    omega
  rw [hmin] at hadv hoff
  have hpos : it'.offset = cur.window.pos + offset := by rw [hoff, h.begin_eq]
  refine .inl ⟨hsize ▸ hle, { begin_ := rd.begin_, end_ := it', syncFlag := false },
    { rd with begin_ := it' }, ?_, ?_, ?_⟩
  · simp [ChainBufferReader.cutHead, hle, hadv, ChainBufferReader.cutHeadAt]
  · exact ⟨h.at_begin, hat, h.begin_eq, hpos, rfl, Nat.zero_le _⟩
  · exact ⟨hat, h.at_end, hpos, h.end_eq, h.sync_eq, Nat.zero_le _⟩

/-- `sync_with_writer` moves the end of the window to the end of the chain. -/
theorem syncWithWriter_spec (hm : m.Ok) (hc : Chain m ks isOpen) (h : ReaderAt m ks isOpen rd cur) :
    ∃ rd', rd.syncWithWriter m = .ok rd' ∧ ReaderAt m ks isOpen rd'
      (if cur.sync then { cur with window := cur.window.extend (stream m ks) } else cur) := by
  cases hs : cur.sync with
  | true =>
    rw [if_pos rfl]
    obtain ⟨it', hadv, hat, hoff⟩ := ChainBufferIterator.advanceTillEnd_spec hm hc h.at_end
    have hflag := h.sync_eq.trans hs
    refine ⟨{ rd with end_ := it' }, by simp [ChainBufferReader.syncWithWriter, hflag, hadv], ?_⟩
    exact ⟨h.at_begin, hat, h.begin_eq, hoff, hflag, h.ready_le⟩
  | false =>
    have hflag := h.sync_eq.trans hs
    exact ⟨rd, by simp [ChainBufferReader.syncWithWriter, hflag], by simpa using h⟩

/-- Both `read_as_buffer_slice`, with the limit of the iterator. -/
theorem readAsBufferSlice_begin (hm : m.Ok) (hc : Chain m ks isOpen)
    (h : ReaderAt m ks isOpen rd cur) {limit : ℕ} (hlimit : limit ≤ rd.size) :
    ∃ res it', rd.begin_.readAsBufferSlice m limit = .ok (res, it') ∧ res.Readable m ∧
      res.asSlice m <+: (cur.window.read (stream m ks)).take limit ∧
      (res.asSlice m = [] → (cur.window.read (stream m ks)).take limit = []) ∧
      min limit rd.begin_.reader.size ≤ (res.asSlice m).length ∧
      ReaderAt m ks isOpen { rd with begin_ := it' }
        (cur.take (stream m ks) (res.asSlice m).length) := by
  obtain ⟨res, it', hread, hres, hprefix, hempty, hmin, hat, hoff⟩ :=
    ChainBufferIterator.readAsBufferSlice_spec hm hc h.at_begin limit
  have htake : (cur.window.read (stream m ks)).take limit =
      ((stream m ks).drop rd.begin_.offset).take limit := by
    rw [h.read_eq, List.take_take, Nat.min_eq_left hlimit]
  refine ⟨res, it', hread, hres, htake ▸ hprefix, ?_, hmin, hat, h.at_end, ?_, h.end_eq, h.sync_eq,
    Nat.zero_le _⟩
  · intro hnil
    rcases hempty hnil with hzero | hend
    · rw [hzero, List.take_zero]
    · rw [h.read_eq_nil hend, List.take_nil]
  · show it'.offset = cur.window.pos + _
    rw [hoff, h.begin_eq]

/-- `read_as_buffer_slice` -/
theorem readAsBufferSlice_spec (hm : m.Ok) (hc : Chain m ks isOpen)
    (h : ReaderAt m ks isOpen rd cur) (hw : cur.window.Within (stream m ks)) (limit : ℕ) :
    ∃ res rd', rd.readAsBufferSlice m limit = .ok (res, rd') ∧ res.Readable m ∧
      res.asSlice m <+: (cur.window.read (stream m ks)).take limit ∧
      (res.asSlice m = [] → (cur.window.read (stream m ks)).take limit = []) ∧
      ReaderAt m ks isOpen rd' (cur.take (stream m ks) (res.asSlice m).length) := by
  obtain ⟨res, it', hread, hres, hprefix, hempty, -, hrd⟩ :=
    h.readAsBufferSlice_begin hm hc (Nat.min_le_right limit rd.size)
  have htake : (cur.window.read (stream m ks)).take (min limit rd.size) =
      (cur.window.read (stream m ks)).take limit := by
    rw [h.size_eq hw, ← List.take_eq_take_min]
  rw [htake] at hprefix hempty
  exact ⟨res, _, by simp [ChainBufferReader.readAsBufferSlice, hread], hres, hprefix, hempty, hrd⟩

/-- `move_as_buffer_slice` -/
theorem moveAsBufferSlice_spec (hm : m.Ok) (hc : Chain m ks isOpen)
    (h : ReaderAt m ks isOpen rd cur) (hw : cur.window.Within (stream m ks)) :
    ∃ res m', rd.moveAsBufferSlice m = .ok (res, {}, m') ∧ m'.Ok ∧ Extends m [] m' [] ∧
      res.Readable m' ∧ res.asSlice m' = cur.window.read (stream m ks) := by
  have hsize := h.size_eq hw
  by_cases hhead : rd.size ≤ rd.begin_.reader.size
  · obtain ⟨res, it', hread, hres, hprefix, -, hmin, -⟩ :=
      h.readAsBufferSlice_begin hm hc (le_refl rd.size)
    refine ⟨res, m, by simp [ChainBufferReader.moveAsBufferSlice, hhead, hread], hm, .refl, hres,
      ?_⟩
    rw [Nat.min_eq_left hhead] at hmin
    rw [hsize, List.take_length] at hprefix
    exact hprefix.eq_of_length_le (hsize ▸ hmin)
  · obtain ⟨b, m', hroom, heq⟩ := BufferSlice.ofSize_eq hm rd.size
    have hzeros := hroom.extendBuffer (List.replicate (roundUp rd.size) 0)
    -- the reader is still where it was
    have hother : ∀ n ∈ ks, n ∉ ([] : List ℕ) := by simp
    have hstream := hzeros.ext.stream_other hc.lt hother
    have hrd : ReaderAt _ ks isOpen rd cur :=
      ⟨hzeros.ext.at_other hc.lt hother h.at_begin, hzeros.ext.at_other hc.lt hother h.at_end,
        h.begin_eq, h.end_eq, h.sync_eq, h.ready_le⟩
    obtain ⟨-, rd', hadv, -⟩ | ⟨-, hlt⟩ := hrd.advance_spec hzeros.ok
      (hzeros.ext.chain_other hc hother) (hstream.symm ▸ hw) rd.size rd.size
    swap
    · rw [hstream, ← hsize] at hlt
      exact absurd hlt (lt_irrefl _)
    rw [hstream, hsize, List.take_length, List.take_length, ← hsize] at hadv
    have hres : (BufferSlice.behind m' b rd.size).size = rd.size := by
      simp [BufferSlice.behind, BufferSlice.size, BufferSlice.isNull]
    have hbehind := hroom.extendBuffer (cur.window.read (stream m ks) ++
      List.replicate (roundUp rd.size - (cur.window.read (stream m ks)).length) 0)
    refine ⟨BufferSlice.behind m' b rd.size, _, ?_, hbehind.ok, hbehind.ext,
      BufferSlice.behind_readable hroom _ (by simp [← hsize]), ?_⟩
    · simp only [ChainBufferReader.moveAsBufferSlice, hhead, if_false, heq, hres, hadv, ok_bind,
        BufferSlice.copyFrom_behind]
      rfl
    · rw [hsize]
      exact BufferSlice.asSlice_behind m' b _ _

/-- A reader of another chain is not concerned. -/
theorem other {m' : Memory} {ns ns' : List ℕ} (h : ReaderAt m ks isOpen rd cur)
    (hext : Extends m ns m' ns') (hlt : ∀ n ∈ ks, n < m.nextNode) (hdisj : ∀ n ∈ ks, n ∉ ns) :
    ReaderAt m' ks isOpen rd cur :=
  ⟨hext.at_other hlt hdisj h.at_begin, hext.at_other hlt hdisj h.at_end, h.begin_eq, h.end_eq,
    h.sync_eq, h.ready_le⟩

/-- A reader of the chain that grows stays where it is. -/
theorem same {m' : Memory} {ks' : List ℕ} (h : ReaderAt m ks true rd cur)
    (hext : Extends m ks m' ks') (isOpen : Bool) : ReaderAt m' ks' isOpen rd cur :=
  ⟨hext.at_same h.at_begin isOpen, hext.at_same h.at_end isOpen, h.begin_eq, h.end_eq, h.sync_eq,
    h.ready_le⟩

/-- Only the window, the flag and what was shown matter. -/
theorem congr {cur' : Cursor} (h : ReaderAt m ks isOpen rd cur) (hwindow : cur'.window = cur.window)
    (hsync : cur'.sync = cur.sync) (hready : cur'.ready ≤ cur.ready) :
    ReaderAt m ks isOpen rd cur' :=
  ⟨h.at_begin, h.at_end, hwindow ▸ h.begin_eq, hwindow ▸ h.end_eq, hsync ▸ h.sync_eq,
    hready.trans h.ready_le⟩

end ReaderAt

/-! ## Appending what a reader reads -/

/-- A reader of the chain that is appended to, or of another one. -/
def Beside (ns ks : List ℕ) (isOpen : Bool) : Prop :=
  (ks = ns ∧ isOpen = true) ∨ ∀ n ∈ ks, n ∉ ns

section Append

variable {ns ns' : List ℕ} {m' : Memory} {w w' : ChainBufferWriter} {ch ch' : Channel}

/-- A reader stays where it is while something is appended. -/
theorem ReaderAt.grow (hw : WriterAt m ns w ch) (hopen : ch.isOpen = true)
    (hw' : WriterAt m' ns' w' ch') (hopen' : ch'.isOpen = true) (hbytes : ch.bytes <+: ch'.bytes)
    (hext : Extends m ns m' ns') (hc : Chain m ks isOpen) (hbeside : Beside ns ks isOpen)
    (h : ReaderAt m ks isOpen rd cur) :
    ∃ ks', Beside ns' ks' isOpen ∧ Chain m' ks' isOpen ∧ ReaderAt m' ks' isOpen rd cur ∧
      stream m ks <+: stream m' ks' ∧ (ks = ns → ks' = ns') ∧ ((∀ n ∈ ks, n ∉ ns) → ks' = ks) := by
  rcases hbeside with ⟨rfl, rfl⟩ | hdisj
  · refine ⟨ns', .inl ⟨rfl, rfl⟩, hopen' ▸ hw'.chain, h.same hext true, ?_, fun _ ↦ rfl,
      fun hdisj ↦ ?_⟩
    · rw [hw.bytes, hw'.bytes]
      exact hbytes
    · obtain ⟨init, t, hks, -⟩ := hw.tail hopen
      exact absurd (show t ∈ ks by simp [hks]) (hdisj t (by simp [hks]))
  · refine ⟨ks, .inr fun n hn hmem ↦ ?_, hext.chain_other hc hdisj, h.other hext hc.lt hdisj, ?_,
      fun heq ↦ ?_, fun _ ↦ rfl⟩
    · obtain ⟨new, rfl, hnew⟩ := hext.added
      rcases List.mem_append.mp hmem with hmem | hmem
      · exact hdisj n hn hmem
      · exact absurd (hc.lt n hn) (Nat.not_lt.mpr (hnew n hmem))
    · rw [hext.stream_other hc.lt hdisj]
    · obtain ⟨init, t, hns, -⟩ := hw.tail hopen
      exact absurd (show t ∈ ns by simp [hns]) (hdisj t (by simp [heq, hns]))

/-- Nothing is left to append. -/
theorem appendReaderLoop_empty (fuel : ℕ) (m : Memory) (w : ChainBufferWriter)
    {rd : ChainBufferReader} (h : rd.size = 0) :
    ChainBufferWriter.appendReaderLoop fuel m w rd = .ok (w, rd, m) := by
  cases fuel <;> simp [ChainBufferWriter.appendReaderLoop, ChainBufferReader.empty, h]

theorem appendReaderLoop_spec (fuel : ℕ) :
    ∀ (m : Memory) (ns ks : List ℕ) (w : ChainBufferWriter) (ch : Channel)
      (rd : ChainBufferReader) (cur : Cursor),
    m.Ok → WriterAt m ns w ch → ch.isOpen = true → Chain m ks isOpen → Beside ns ks isOpen →
    ReaderAt m ks isOpen rd cur → cur.window.Within (stream m ks) → rd.size ≤ fuel →
    ∃ m' ns' ks' w' rd', ChainBufferWriter.appendReaderLoop fuel m w rd = .ok (w', rd', m') ∧
      m'.Ok ∧ WriterAt m' ns' w' { ch with bytes := ch.bytes ++ cur.window.read (stream m ks) } ∧
      Extends m ns m' ns' ∧
      ReaderAt m' ks' isOpen rd'
        (cur.take (stream m ks) (cur.window.read (stream m ks)).length) ∧
      (ks = ns → ks' = ns') ∧ ((∀ n ∈ ks, n ∉ ns) → ks' = ks) := by
  induction fuel with
  | zero =>
    intro m ns ks w ch rd cur hm hw hopen hc hbeside h hwin hfuel
    have hsize := h.size_eq hwin
    have hnil : cur.window.read (stream m ks) = [] :=
      List.length_eq_zero_iff.mp (by omega)
    refine ⟨m, ns, ks, w, rd, appendReaderLoop_empty 0 m w (Nat.le_zero.mp hfuel), hm,
      by simpa [hnil] using hw, .refl, ?_, id, fun _ ↦ rfl⟩
    exact h.congr (by simp [hnil, Cursor.take, Window.skip]) rfl (Nat.zero_le _)
  | succ fuel ih =>
    intro m ns ks w ch rd cur hm hw hopen hc hbeside h hwin hfuel
    have hsize := h.size_eq hwin
    by_cases hempty : rd.size = 0
    · have hnil : cur.window.read (stream m ks) = [] :=
        List.length_eq_zero_iff.mp (by omega)
      refine ⟨m, ns, ks, w, rd, appendReaderLoop_empty _ m w hempty, hm, by simpa [hnil] using hw,
        .refl, ?_, id, fun _ ↦ rfl⟩
      exact h.congr (by simp [hnil, Cursor.take, Window.skip]) rfl (Nat.zero_le _)
    -- one round moves some bytes from the front of the window to the end of the channel
    obtain ⟨res, it', hread, hres, hprefix, hnonempty, -, h₁⟩ :=
      h.readAsBufferSlice_begin hm hc (le_refl rd.size)
    rw [hsize, List.take_length] at hprefix hnonempty
    obtain ⟨m₂, ns₂, w₂, happend, hm₂, hw₂, hext₂⟩ := hw.appendBufferSlice_spec hm hopen hres
    obtain ⟨ks₂, hbeside₂, hc₂, h₂, hstream, hsame, hother⟩ :=
      h₁.grow hw hopen hw₂ hopen (List.prefix_append _ _) hext₂ hc hbeside
    have hpos : res.asSlice m ≠ [] := by
      intro hnil
      rw [hnonempty hnil] at hsize
      exact hempty hsize
    have hlen := List.length_pos_of_ne_nil hpos
    have hle := hprefix.length_le
    obtain ⟨x, hx⟩ := hstream
    have hwin₁ : (cur.window.skip (res.asSlice m).length).Within (stream m ks) := hwin.skip hle
    have hwin₂ : (cur.window.skip (res.asSlice m).length).Within (stream m₂ ks₂) :=
      hx ▸ hwin₁.append x
    have hrest : (cur.window.skip (res.asSlice m).length).read (stream m₂ ks₂) =
        (cur.window.read (stream m ks)).drop (res.asSlice m).length := by
      rw [← hx, hwin₁.read_append, Window.read_skip]
    have hsize₂ := h₂.size_eq hwin₂
    obtain ⟨m₃, ns₃, ks₃, w₃, rd₃, hrun, hm₃, hw₃, hext₃, h₃, hsame₃, hother₃⟩ :=
      ih m₂ ns₂ ks₂ w₂ _ _ _ hm₂ hw₂ hopen hc₂ hbeside₂ h₂ hwin₂ (by
        rw [hsize₂]
        show ((cur.window.skip _).read _).length ≤ fuel
        rw [hrest, List.length_drop]
        omega)
    refine ⟨m₃, ns₃, ks₃, w₃, rd₃, ?_, hm₃, ?_, hext₂.trans hext₃, ?_, fun heq ↦ ?_,
      fun hdisj ↦ ?_⟩
    · rw [ChainBufferWriter.appendReaderLoop,
        if_neg (by simp [ChainBufferReader.empty, hempty])]
      simp only [ChainBufferReader.readAllAsBufferSlice, hread, ok_bind, pure_eq_ok, happend, hrun]
    · have hjoin : res.asSlice m ++ (cur.window.read (stream m ks)).drop (res.asSlice m).length =
          cur.window.read (stream m ks) := by
        obtain ⟨y, hy⟩ := hprefix
        rw [← hy, List.drop_left]
      have hw₃' := hw₃
      rw [show ((cur.take (stream m ks) (res.asSlice m).length).window.read (stream m₂ ks₂)) =
        (cur.window.read (stream m ks)).drop (res.asSlice m).length from hrest] at hw₃'
      simpa only [List.append_assoc, hjoin] using hw₃'
    · refine h₃.congr ?_ rfl (Nat.zero_le _)
      show cur.window.skip _ = (cur.window.skip _).skip
        ((cur.window.skip (res.asSlice m).length).read (stream m₂ ks₂)).length
      rw [hrest, List.length_drop]
      simp only [Window.skip, Window.mk.injEq, and_true]
      omega
    · exact hsame₃ (hsame heq)
    · have hdisj₂ : ∀ n ∈ ks₂, n ∉ ns₂ := by
        rcases hbeside₂ with ⟨heq, -⟩ | hdisj₂
        · obtain ⟨init, t, hns, -⟩ := hw₂.tail hopen
          have hk : ks₂ = ks := hother hdisj
          obtain ⟨new, hadded, hnew⟩ := hext₂.added
          obtain ⟨init', t', hns', -⟩ := hw.tail hopen
          have ht' : t' ∈ ks := by simp [← hk, heq, hadded, hns']
          exact absurd (show t' ∈ ns by simp [hns']) (hdisj t' ht')
        · exact hdisj₂
      exact (hother₃ hdisj₂).trans (hother hdisj)

end Append

end PxcCore.Buffer
