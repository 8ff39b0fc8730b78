import PxcCore.Utils.Buffer.Invariant

/-!
# The iterator

An iterator in a chain reads the bytes of the chain from its offset on.
-/

namespace PxcCore.Buffer

open Lib

variable {m : Memory} {ns : List ℕ} {isOpen : Bool} {it : ChainBufferIterator}

/-! ## At a node -/

namespace AtNode

variable {pre : List ℕ} {n : ℕ}

/-- What the slice of the iterator shows is what the node holds from there on. -/
theorem asSlice_prefix (h : AtNode m pre n it) :
    it.reader.asSlice m <+: (content m n).drop (it.reader.begin_ - (m.node n).slice.begin_) := by
  have hbegin : (m.node n).slice.begin_ + (it.reader.begin_ - (m.node n).slice.begin_) =
      it.reader.begin_ := Nat.add_sub_cancel' h.le_begin
  rcases hb : (m.node n).slice.buffer with _ | b
  · simp [BufferSlice.asSlice, h.buffer_eq, hb]
  · have hslice : it.reader.asSlice m =
        ((m.buffer b).data.take it.reader.end_).drop it.reader.begin_ := by
      simp [BufferSlice.asSlice, h.buffer_eq, hb]
    rw [hslice]
    cases hs : (m.node n).syncFlag with
    | true =>
      rw [content_of_sync hs hb, List.drop_drop, hbegin, List.drop_take]
      exact List.take_prefix _ _
    | false =>
      have hend := h.end_eq (h.sync_eq.trans hs)
      rw [content_of_not_sync hs]
      simp [BufferSlice.asSlice, hb, List.drop_drop, hbegin, hend]

/-- The iterator is not behind the end of its node. -/
theorem begin_le (h : AtNode m pre n it) (hsome : (m.node n).slice.buffer.isSome) :
    it.reader.begin_ - (m.node n).slice.begin_ ≤ (content m n).length := by
  obtain ⟨b, hb⟩ := Option.isSome_iff_exists.mp hsome
  have hle := h.readable.begin_le
  have hend := (h.readable.within b (h.buffer_eq.trans hb)).2
  cases hs : (m.node n).syncFlag with
  | true =>
    rw [content_of_sync hs hb, List.length_drop]
    omega
  | false =>
    have hend' := h.end_eq (h.sync_eq.trans hs)
    simp only [content_of_not_sync hs, BufferSlice.asSlice, hb, List.length_drop, List.length_take]
    omega

/-- After a synchronization the iterator shows all that the node still holds. -/
theorem sync_spec (h : AtNode m pre n it) (hsome : (m.node n).slice.buffer.isSome) :
    ∃ it', it.sync m = .ok it' ∧ AtNode m pre n it' ∧ it'.offset = it.offset ∧
      it'.reader.begin_ = it.reader.begin_ ∧
      it'.reader.asSlice m =
        (content m n).drop (it.reader.begin_ - (m.node n).slice.begin_) := by
  obtain ⟨b, hb⟩ := Option.isSome_iff_exists.mp hsome
  have hbegin : (m.node n).slice.begin_ + (it.reader.begin_ - (m.node n).slice.begin_) =
      it.reader.begin_ := Nat.add_sub_cancel' h.le_begin
  have hbuf := h.buffer_eq.trans hb
  have hle := h.readable.begin_le
  obtain ⟨hlt, hend⟩ := h.readable.within b hbuf
  cases hs : it.needSync with
  | true =>
    have hflag := h.sync_eq.symm.trans hs
    refine ⟨{ it with reader := { it.reader with end_ := (m.buffer b).end_ } }, ?_, ?_, rfl, rfl,
      ?_⟩
    · simp [ChainBufferIterator.sync, hs, BufferSlice.syncWithWriter, hbuf]
    · refine ⟨h.head_eq, h.sync_eq, h.buffer_eq, h.le_begin, ⟨?_, ?_⟩, ?_, h.offset_eq⟩
      · exact hle.trans hend
      · intro c hc
        cases hbuf.symm.trans hc
        exact ⟨hlt, le_refl _⟩
      · intro hf
        exact absurd (hs.symm.trans hf) (by simp)
    · rw [content_of_sync hflag hb, List.drop_drop, hbegin]
      simp [BufferSlice.asSlice, hbuf, BufferRaw.end_]
  | false =>
    have hflag := h.sync_eq.symm.trans hs
    refine ⟨it, by simp [ChainBufferIterator.sync, hs], h, rfl, rfl, ?_⟩
    rw [content_of_not_sync hflag]
    simp [BufferSlice.asSlice, hbuf, hb, List.drop_drop, hbegin, h.end_eq hs]

/-- The iterator that `load_head` puts on a node. -/
theorem loadHead (hm : m.Ok) (hn : n < m.nextNode) (hoff : it.offset = (stream m pre).length) :
    AtNode m pre n (it.loadHead m n) :=
  ⟨rfl, rfl, rfl, le_refl _, hm.slice n hn, fun _ ↦ rfl, by
    simp [ChainBufferIterator.loadHead, hoff]⟩

end AtNode

/-! ## In a chain -/

namespace At

theorem readable (h : At m ns isOpen it) : it.reader.Readable m := by
  rcases h with ⟨pre, n, post, -, hn⟩ | hd
  · exact hn.readable
  · exact hd.readable

theorem default (m : Memory) : At m [] false {} :=
  .done ⟨rfl, rfl, BufferSlice.readable_default m, rfl, rfl⟩

/-- The slice of the iterator is a piece of the chain that begins at its offset. -/
theorem asSlice_prefix (h : At m ns isOpen it) :
    it.reader.asSlice m <+: (stream m ns).drop it.offset := by
  rcases h with ⟨pre, n, post, rfl, hn⟩ | hd
  · rw [stream_append, stream_cons, hn.offset_eq, ← List.drop_drop, List.drop_left]
    exact hn.asSlice_prefix.trans ((List.prefix_append _ _).drop _)
  · have hlen := hd.readable.length_asSlice
    rw [hd.empty, List.length_eq_zero_iff] at hlen
    rw [hlen]
    exact List.nil_prefix

theorem offset_le (hm : m.Ok) (hc : Chain m ns isOpen) (h : At m ns isOpen it) :
    it.offset ≤ (stream m ns).length := by
  rcases h with ⟨pre, n, post, rfl, hn⟩ | hd
  · have := hn.begin_le (hm.buffer n (hc.lt n (by simp)))
    rw [hn.offset_eq, stream_append, stream_cons, List.length_append, List.length_append]
    omega
  · exact hd.offset_eq.le

end At

namespace ChainBufferIterator

/-- The loop ends within the nodes that are left. -/
theorem prepareReadLoop_spec (hm : m.Ok) (hc : Chain m ns isOpen) (fuel : ℕ) :
    ∀ (pre : List ℕ) (n : ℕ) (post : List ℕ) (it : ChainBufferIterator),
    ns = pre ++ n :: post → AtNode m pre n it → post.length + 1 ≤ fuel →
    ∃ it', prepareReadLoop m fuel it = .ok (it'.reader.asSlice m, it') ∧ At m ns isOpen it' ∧
      it'.offset = it.offset ∧ (it'.reader.asSlice m = [] → it.offset = (stream m ns).length) := by
  induction fuel with
  | zero =>
    intro pre n post it hsplit hn hfuel
    omega
  | succ fuel ih =>
    intro pre n post it hsplit hn hfuel
    have hlt := hc.lt n (by simp [hsplit])
    obtain ⟨hnext, hwriter⟩ := hc.linked pre n post hsplit
    obtain ⟨it₁, hsync, hn₁, hoff₁, hbegin₁, hall⟩ := hn.sync_spec (hm.buffer n hlt)
    by_cases hres : it.reader.asSlice m = []
    swap
    · exact ⟨it, by simp [prepareReadLoop, hn.head_eq, hres], .node pre n post hsplit hn, rfl,
        fun h ↦ absurd h hres⟩
    by_cases hres₁ : it₁.reader.asSlice m = []
    swap
    · exact ⟨it₁, by simp [prepareReadLoop, hn.head_eq, hres, hsync, hres₁],
        .node pre n post hsplit hn₁, hoff₁, fun h ↦ absurd h hres₁⟩
    -- all bytes of this node are read
    have hend : it.offset = (stream m (pre ++ [n])).length := by
      have hle := hn.begin_le (hm.buffer n hlt)
      rw [hall, List.drop_eq_nil_iff] at hres₁
      rw [hn.offset_eq]
      simp only [stream_append, stream_cons, stream_nil, List.append_nil, List.length_append]
      omega
    cases hpost : post with
    | nil =>
      rw [hpost] at hsplit hnext hwriter
      rw [← hsplit] at hend
      cases isOpen with
      | true =>
        exact ⟨it₁, by simp [prepareReadLoop, hn.head_eq, hres, hsync, hres₁, hwriter],
          .node pre n [] hsplit hn₁, hoff₁, fun _ ↦ hend⟩
      | false =>
        have hlen := hn₁.readable.length_asSlice
        refine ⟨{ it₁ with head_ := none }, ?_, ?_, hoff₁, fun _ ↦ hend⟩
        · simp [prepareReadLoop, hn.head_eq, hres, hsync, hres₁, hwriter, hnext]
        · refine .done ⟨rfl, rfl, hn₁.readable, ?_, hoff₁.trans hend⟩
          rw [← hlen, hres₁]
          rfl
    | cons k post' =>
      rw [hpost] at hsplit hnext hwriter hfuel
      have hk : k < m.nextNode := hc.lt k (by simp [hsplit])
      have hload : AtNode m (pre ++ [n]) k (it₁.loadHead m k) :=
        AtNode.loadHead hm hk (hoff₁.trans hend)
      obtain ⟨it', hrun, hat, hoff, hempty⟩ := ih (pre ++ [n]) k post' (it₁.loadHead m k)
        (by simp [hsplit]) hload (by simpa using hfuel)
      refine ⟨it', ?_, hat, hoff.trans hoff₁, fun h ↦ hoff₁.symm.trans (hempty h)⟩
      simpa [prepareReadLoop, hn.head_eq, hres, hsync, hres₁, hwriter, hnext] using hrun

/-- `prepare_read` shows bytes at the offset, and none only if there are none. -/
theorem prepareRead_spec (hm : m.Ok) (hc : Chain m ns isOpen) (h : At m ns isOpen it) :
    ∃ it', it.prepareRead m = .ok (it'.reader.asSlice m, it') ∧ At m ns isOpen it' ∧
      it'.offset = it.offset ∧ (it'.reader.asSlice m = [] → it.offset = (stream m ns).length) := by
  rcases h with ⟨pre, n, post, hsplit, hn⟩ | hd
  · refine prepareReadLoop_spec hm hc _ pre n post it hsplit hn ?_
    have := hc.length_le
    rw [hsplit, List.length_append, List.length_cons] at this
    omega
  · have hlen := hd.readable.length_asSlice
    rw [hd.empty, List.length_eq_zero_iff] at hlen
    exact ⟨it, by simp [prepareRead, prepareReadLoop, hd.head_eq, hlen], .done hd, rfl,
      fun _ ↦ hd.offset_eq⟩

/-- `prepare_read` shows no less than the iterator has shown. -/
theorem size_le_of_prepareRead (h : At m ns isOpen it) {b : List UInt8}
    {it' : ChainBufferIterator} (hprep : it.prepareRead m = .ok (b, it')) :
    it.reader.size ≤ it'.reader.size := by
  have hlen := h.readable.length_asSlice
  by_cases hnil : it.reader.asSlice m = []
  · rw [← hlen, hnil]
    exact Nat.zero_le _
  · rcases h with ⟨pre, n, post, -, hn⟩ | hd
    · simp only [prepareRead, prepareReadLoop, hn.head_eq, hnil, ne_eq, not_false_eq_true, if_true,
        pure_eq_ok, Except.ok.injEq, Prod.mk.injEq] at hprep
      rw [hprep.2]
    · rw [hd.empty]
      exact Nat.zero_le _

/-- `confirm_read` of bytes that the iterator shows moves it behind them. -/
theorem confirmRead_spec (h : At m ns isOpen it) {k : ℕ} (hk : k ≤ it.reader.size) :
    ∃ it', it.confirmRead k = .ok it' ∧ At m ns isOpen it' ∧ it'.offset = it.offset + k ∧
      it'.reader.asSlice m = (it.reader.asSlice m).drop k := by
  have hle := h.readable.begin_add_size_le
  refine ⟨{ it with reader := { it.reader with begin_ := it.reader.begin_ + k }
                    offset := it.offset + k }, ?_, ?_, rfl, ?_⟩
  · simp [confirmRead, BufferSlice.confirmRead_of_le h.readable hk]
  · rcases h with ⟨pre, n, post, hsplit, hn⟩ | hd
    · refine .node pre n post hsplit ⟨hn.head_eq, hn.sync_eq, hn.buffer_eq, ?_, ?_, hn.end_eq, ?_⟩
      · exact hn.le_begin.trans (Nat.le_add_right _ _)
      · exact hn.readable.confirm (by omega)
      · have := hn.offset_eq
        have := hn.le_begin
        show it.offset + k = _ + (it.reader.begin_ + k - _)
        omega
    · have hk0 : k = 0 := by
        rw [hd.empty] at hk
        omega
      subst hk0
      exact .done ⟨hd.closed, hd.head_eq, hd.readable, hd.empty, hd.offset_eq⟩
  · exact BufferSlice.asSlice_confirm m it.reader k

/-- `read_as_buffer_slice` gives bytes at the offset, and moves behind them. -/
theorem readAsBufferSlice_spec (hm : m.Ok) (hc : Chain m ns isOpen) (h : At m ns isOpen it)
    (limit : ℕ) :
    ∃ res it', it.readAsBufferSlice m limit = .ok (res, it') ∧ res.Readable m ∧
      res.asSlice m <+: ((stream m ns).drop it.offset).take limit ∧
      (res.asSlice m = [] → limit = 0 ∨ it.offset = (stream m ns).length) ∧
      min limit it.reader.size ≤ (res.asSlice m).length ∧
      At m ns isOpen it' ∧ it'.offset = it.offset + (res.asSlice m).length := by
  obtain ⟨it₁, hprep, hat₁, hoff₁, hempty⟩ := prepareRead_spec hm hc h
  have hr := hat₁.readable
  have hsize := hr.size_truncate limit
  obtain ⟨it₂, hconf, hat₂, hoff₂, -⟩ :=
    confirmRead_spec hat₁ (k := (it₁.reader.truncate limit).size) (by omega)
  refine ⟨it₁.reader.truncate limit, it₂, ?_, hr.truncate limit, ?_, ?_, ?_, hat₂, ?_⟩
  · simp [readAsBufferSlice, hprep, hconf]
  · rw [hr.asSlice_truncate, ← hoff₁]
    exact hat₁.asSlice_prefix.take limit
  · rw [hr.asSlice_truncate, List.take_eq_nil_iff]
    exact fun hnil ↦ hnil.imp_right hempty
  · rw [(hr.truncate limit).length_asSlice, hsize]
    exact min_le_min_left _ (size_le_of_prepareRead h hprep)
  · rw [hoff₂, hoff₁, (hr.truncate limit).length_asSlice]

theorem advanceTillEndLoop_spec (hm : m.Ok) (hc : Chain m ns isOpen) (fuel : ℕ) :
    ∀ it, At m ns isOpen it → (stream m ns).length - it.offset + 1 ≤ fuel →
    ∃ it', advanceTillEndLoop m fuel it = .ok it' ∧ At m ns isOpen it' ∧
      it'.offset = (stream m ns).length := by
  induction fuel with
  | zero =>
    intro it h hfuel
    omega
  | succ fuel ih =>
    intro it h hfuel
    obtain ⟨it₁, hprep, hat₁, hoff₁, hempty⟩ := prepareRead_spec hm hc h
    by_cases hnil : it₁.reader.asSlice m = []
    · refine ⟨it₁, ?_, hat₁, hoff₁.trans (hempty hnil)⟩
      rw [hnil] at hprep
      simp [advanceTillEndLoop, hprep]
    · have hlen := hat₁.readable.length_asSlice
      have hpos := List.length_pos_of_ne_nil hnil
      obtain ⟨it₂, hconf, hat₂, hoff₂, -⟩ := confirmRead_spec hat₁ hlen.le
      have hle := hat₂.offset_le hm hc
      obtain ⟨it', hrun, hat', hoff'⟩ := ih it₂ hat₂ (by omega)
      exact ⟨it', by simp [advanceTillEndLoop, hprep, hnil, hconf, hrun], hat', hoff'⟩

/-- `advance_till_end` ends behind the last byte. -/
theorem advanceTillEnd_spec (hm : m.Ok) (hc : Chain m ns isOpen) (h : At m ns isOpen it) :
    ∃ it', it.advanceTillEnd m = .ok it' ∧ At m ns isOpen it' ∧
      it'.offset = (stream m ns).length := by
  refine advanceTillEndLoop_spec hm hc _ it h ?_
  have := hc.length_stream_le
  omega

/-- A copy into a place of `dest` bytes, made in two rounds. -/
theorem take_round (bytes : List UInt8) (k dest : ℕ) :
    bytes.take dest = (bytes.take k).take dest ++
      (bytes.drop k).take (dest - ((bytes.take k).take dest).length) := by
  conv_lhs => rw [← List.take_append_drop k bytes, List.take_append]
  congr 2
  simp only [List.length_take]
  omega

/-- What a round shows of a piece of the chain. -/
theorem take_length_take (ready rest : List UInt8) (offset : ℕ) :
    ((ready ++ rest).take offset).take (ready.take offset).length = ready.take offset := by
  rw [List.take_take, List.length_take, Nat.min_eq_left (Nat.min_le_left _ _), List.take_append,
    List.take_eq_take_min, Nat.min_assoc]
  simp

theorem advanceLoop_spec (hm : m.Ok) (hc : Chain m ns isOpen) (fuel : ℕ) :
    ∀ it offset dest, At m ns isOpen it → offset ≤ fuel →
    ∃ it', advanceLoop m fuel it offset dest =
        .ok (min offset ((stream m ns).length - it.offset),
          (((stream m ns).drop it.offset).take offset).take dest, it') ∧
      At m ns isOpen it' ∧
      it'.offset = it.offset + min offset ((stream m ns).length - it.offset) := by
  induction fuel with
  | zero =>
    intro it offset dest h hfuel
    obtain rfl : offset = 0 := by omega
    exact ⟨it, by simp [advanceLoop], h, by simp⟩
  | succ fuel ih =>
    intro it offset dest h hfuel
    by_cases hzero : offset = 0
    · subst hzero
      exact ⟨it, by simp [advanceLoop], h, by simp⟩
    obtain ⟨it₁, hprep, hat₁, hoff₁, hempty⟩ := prepareRead_spec hm hc h
    by_cases hnil : it₁.reader.asSlice m = []
    · refine ⟨it₁, ?_, hat₁, ?_⟩
      · rw [hnil] at hprep
        simp [advanceLoop, hzero, hprep, hempty hnil]
      · rw [hoff₁, hempty hnil]
        simp
    -- one round consumes what the slice shows, or all that was asked for
    obtain ⟨rest, hrest⟩ := hat₁.asSlice_prefix
    rw [hoff₁] at hrest
    have hlen := hat₁.readable.length_asSlice
    have hpos := List.length_pos_of_ne_nil hnil
    generalize hready : it₁.reader.asSlice m = ready at *
    have htotal : ready.length + rest.length = (stream m ns).length - it.offset := by
      rw [← List.length_append, hrest, List.length_drop]
    obtain ⟨it₂, hconf, hat₂, hoff₂, -⟩ :=
      confirmRead_spec hat₁ (k := (ready.take offset).length) (by simp; omega)
    have hround : (ready.take offset).length = min offset ready.length := List.length_take
    obtain ⟨it', hrun, hat', hoff'⟩ := ih it₂ (offset - (ready.take offset).length)
      (dest - ((ready.take offset).take dest).length) hat₂ (by omega)
    have hdrop : (stream m ns).drop it₂.offset =
        (ready ++ rest).drop (ready.take offset).length := by
      rw [hrest, List.drop_drop, hoff₂, hoff₁]
    have hleft : (stream m ns).length - it₂.offset =
        ready.length + rest.length - min offset ready.length := by
      rw [hoff₂, hoff₁, hround]
      omega
    refine ⟨it', ?_, hat', ?_⟩
    · have hskip : (ready.take offset).length + min (offset - (ready.take offset).length)
          ((stream m ns).length - it₂.offset) =
          min offset ((stream m ns).length - it.offset) := by omega
      have hcopy := take_round ((ready ++ rest).take offset) (ready.take offset).length dest
      rw [take_length_take, List.drop_take, ← hdrop, hrest] at hcopy
      rw [advanceLoop, if_neg hzero]
      simp only [hprep, ok_bind, hnil, if_false, hconf, hrun, pure_eq_ok, hskip, ← hcopy]
    · omega

/-- `advance` skips as many bytes as asked for, as far as there are so many, and copies those that
`dest` has room for. -/
theorem advance_spec (hm : m.Ok) (hc : Chain m ns isOpen) (h : At m ns isOpen it)
    (offset dest : ℕ) :
    ∃ it', it.advance m offset dest =
        .ok (min offset ((stream m ns).length - it.offset),
          (((stream m ns).drop it.offset).take offset).take dest, it') ∧
      At m ns isOpen it' ∧
      it'.offset = it.offset + min offset ((stream m ns).length - it.offset) :=
  advanceLoop_spec hm hc offset it offset dest h (le_refl _)

end ChainBufferIterator

end PxcCore.Buffer
