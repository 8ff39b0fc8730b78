import PxcCore.Lib.ListUpdate
import PxcCore.Utils.Buffer.Writer

/-!
# Writing in place

Bytes that a chain holds are replaced by as many others.  Nothing moves, and when no two nodes hold
a byte in common, the other bytes of the chain stay what they are.
-/

namespace PxcCore.Buffer

open Lib

variable {m m' : Memory} {ns : List ℕ} {isOpen : Bool} {it : ChainBufferIterator}

/-! ## Memory of the same shape -/

/-- Memory `m'` is memory `m` with other bytes. -/
structure SameShape (m m' : Memory) : Prop where
  node : m'.node = m.node
  nextNode : m'.nextNode = m.nextNode
  nextBuffer : m'.nextBuffer = m.nextBuffer
  bufferRawTls : m'.bufferRawTls = m.bufferRawTls
  length : ∀ b, (m'.buffer b).data.length = (m.buffer b).data.length

namespace SameShape

theorem readable (h : SameShape m m') {s : BufferSlice} (hs : s.Readable m) : s.Readable m' where
  begin_le := hs.begin_le
  within b hb := by
    rw [h.nextBuffer, h.length]
    exact hs.within b hb

theorem ok (h : SameShape m m') (hm : m.Ok) : m'.Ok where
  slice n hn := by
    rw [h.nextNode] at hn
    rw [h.node]
    exact h.readable (hm.slice n hn)
  buffer n hn := by
    rw [h.nextNode] at hn
    rw [h.node]
    exact hm.buffer n hn
  sync_inj := by
    rw [h.nextNode, h.node]
    exact hm.sync_inj
  tls_lt := by
    rw [h.bufferRawTls, h.nextBuffer]
    exact hm.tls_lt
  tls_ne := by
    rw [h.bufferRawTls, h.nextNode, h.node]
    exact hm.tls_ne

theorem length_content (h : SameShape m m') (n : ℕ) :
    (content m' n).length = (content m n).length := by
  rcases hb : (m.node n).slice.buffer with _ | b
  · simp [content, h.node, hb, BufferSlice.asSlice]
  · cases hs : (m.node n).syncFlag with
    | true => simp [content, h.node, hb, hs, h.length]
    | false => simp [content, h.node, hb, hs, BufferSlice.asSlice, h.length]

theorem length_stream (h : SameShape m m') (ns : List ℕ) :
    (stream m' ns).length = (stream m ns).length := by
  induction ns with
  | nil => rfl
  | cons n ns ih =>
    rw [stream_cons, stream_cons, List.length_append, List.length_append, h.length_content, ih]

theorem chain (h : SameShape m m') (hc : Chain m ns isOpen) : Chain m' ns isOpen where
  lt := by
    rw [h.nextNode]
    exact hc.lt
  sorted := hc.sorted
  linked := by
    rw [h.node]
    exact hc.linked

/-- An iterator stays where it is. -/
theorem at_chain (h : SameShape m m') (hat : At m ns isOpen it) : At m' ns isOpen it := by
  rcases hat with ⟨pre, n, post, rfl, hn⟩ | hd
  · refine .node pre n post rfl ⟨hn.head_eq, ?_, ?_, ?_, h.readable hn.readable, ?_, ?_⟩
    · rw [h.node, hn.sync_eq]
    · rw [h.node, hn.buffer_eq]
    · rw [h.node]
      exact hn.le_begin
    · rw [h.node]
      exact hn.end_eq
    · rw [h.node, h.length_stream, hn.offset_eq]
  · exact .done ⟨hd.closed, hd.head_eq, h.readable hd.readable, hd.empty,
      by rw [h.length_stream, hd.offset_eq]⟩

/-- So does the writer. -/
theorem writerAt (h : SameShape m m') {w : ChainBufferWriter} {ch : Channel}
    (hw : WriterAt m ns w ch) : WriterAt m' ns w { ch with bytes := stream m' ns } where
  chain := h.chain hw.chain
  bytes := rfl
  tail := by
    rw [h.node]
    exact hw.tail
  closed := hw.closed
  head := hw.head
  head_open := hw.head_open

end SameShape

/-! ## Bytes of their own -/

/-- Two nodes that hold no byte in common. -/
def Apart (node node' : ChainBufferNode) : Prop :=
  node.slice.buffer = node'.slice.buffer → node.syncFlag = false ∧ node'.syncFlag = false ∧
    (node.slice.end_ ≤ node'.slice.begin_ ∨ node'.slice.end_ ≤ node.slice.begin_)

theorem Apart.symm {node node' : ChainBufferNode} (h : Apart node node') : Apart node' node :=
  fun heq ↦ ⟨(h heq.symm).2.1, (h heq.symm).1, (h heq.symm).2.2.symm⟩

/-- No two nodes hold a byte in common, and the slices of those that are synchronized with their
buffers have not been used. -/
structure Memory.OwnBytes (m : Memory) : Prop where
  sync_size : ∀ n < m.nextNode, (m.node n).syncFlag = true → (m.node n).slice.size = 0
  lt : ∀ n < m.nextNode, ∀ b, (m.node n).slice.buffer = some b → b < m.nextBuffer
  apart : ∀ n < m.nextNode, ∀ k < m.nextNode, n ≠ k → Apart (m.node n) (m.node k)

theorem SameShape.ownBytes (h : SameShape m m') (hown : m.OwnBytes) : m'.OwnBytes where
  sync_size := by
    rw [h.nextNode, h.node]
    exact hown.sync_size
  lt := by
    rw [h.nextNode, h.node, h.nextBuffer]
    exact hown.lt
  apart := by
    rw [h.nextNode, h.node]
    exact hown.apart

theorem ownBytes_pushBuffer (hown : m.OwnBytes) (raw : BufferRaw) : (m.pushBuffer raw).OwnBytes :=
  ⟨hown.sync_size, fun n hn b hb ↦ Nat.lt_succ_of_lt (hown.lt n hn b hb), hown.apart⟩

theorem ownBytes_pushNode {node : ChainBufferNode} (hown : m.OwnBytes)
    (hsize : node.syncFlag = true → node.slice.size = 0)
    (hlt : ∀ b, node.slice.buffer = some b → b < m.nextBuffer)
    (hapart : ∀ n < m.nextNode, Apart (m.node n) node) : (m.pushNode node).OwnBytes where
  sync_size n hn := by
    rcases Nat.lt_succ_iff_lt_or_eq.mp hn with hlt | rfl
    · rw [Memory.pushNode_of_lt m node hlt]
      exact hown.sync_size n hlt
    · rw [Memory.pushNode_self]
      exact hsize
  lt n hn := by
    rcases Nat.lt_succ_iff_lt_or_eq.mp hn with hlt' | rfl
    · rw [Memory.pushNode_of_lt m node hlt']
      exact hown.lt n hlt'
    · rw [Memory.pushNode_self]
      exact hlt
  apart n hn k hk hne := by
    rcases Nat.lt_succ_iff_lt_or_eq.mp hn with hnlt | rfl <;>
      rcases Nat.lt_succ_iff_lt_or_eq.mp hk with hklt | rfl
    · rw [Memory.pushNode_of_lt m node hnlt, Memory.pushNode_of_lt m node hklt]
      exact hown.apart n hnlt k hklt hne
    · rw [Memory.pushNode_of_lt m node hnlt, Memory.pushNode_self]
      exact hapart n hnlt
    · rw [Memory.pushNode_of_lt m node hklt, Memory.pushNode_self]
      exact (hapart k hklt).symm
    · exact absurd rfl hne

theorem ownBytes_link (hown : m.OwnBytes) (tail newTail : ℕ) :
    (ChainBufferWriter.link m tail newTail).OwnBytes where
  sync_size n hn := by
    rw [ChainBufferWriter.link, setNode_syncFlag (by rfl), setNode_slice (by rfl)]
    exact hown.sync_size n hn
  lt n hn := by
    rw [ChainBufferWriter.link, setNode_slice (by rfl)]
    exact hown.lt n hn
  apart n hn k hk hne := by
    rw [Apart, ChainBufferWriter.link, setNode_syncFlag (by rfl), setNode_slice (by rfl),
      setNode_syncFlag (by rfl), setNode_slice (by rfl)]
    exact hown.apart n hn k hk hne

/-- The node of a new writer. -/
theorem ownBytes_createNode (hown : m.OwnBytes) (hint : ℕ) :
    (ChainBufferWriter.createNode (BufferAllocator.createWriter m hint).2
      (BufferSlice.ofBuffer (BufferAllocator.createWriter m hint).2
        (BufferAllocator.createWriter m hint).1) true).2.OwnBytes := by
  refine ownBytes_pushNode (ownBytes_pushBuffer hown _) (fun _ ↦ ?_) (fun b hb ↦ ?_)
    fun n hn heq ↦ absurd (hown.lt n hn _ heq) (Nat.lt_irrefl _)
  · simp [BufferSlice.ofBuffer, BufferAllocator.createWriter, BufferAllocator.createBufferRaw,
      BufferSlice.size, BufferRaw.end_]
  · obtain rfl : m.nextBuffer = b := Option.some.inj hb
    exact Nat.lt_succ_self _

variable {w w' : ChainBufferWriter} {slice : List UInt8} {hint : ℕ}

/-- A new tail has a new buffer. -/
theorem ownBytes_prepareAppend {room : ℕ} (hown : m.OwnBytes)
    (h : w.prepareAppend m hint = .ok (room, w', m')) : m'.OwnBytes := by
  obtain ⟨res, -, h⟩ := bind_eq_ok.mp h
  split_ifs at h with hzero
  · rw [ChainBufferWriter.prepareAppendAlloc] at h
    cases htail : w.tail with
    | none => simp [htail] at h
    | some tail =>
      simp only [htail, Except.ok.injEq, Prod.mk.injEq] at h
      obtain ⟨-, -, rfl⟩ := h
      exact ownBytes_link (ownBytes_createNode hown _) tail _
  · simp only [pure_eq_ok, Except.ok.injEq, Prod.mk.injEq] at h
    obtain ⟨-, -, rfl⟩ := h
    exact hown

theorem ownBytes_confirmAppend (hown : m.OwnBytes) (h : w.confirmAppend m slice = .ok m') :
    m'.OwnBytes := by
  obtain ⟨-, -, h⟩ := bind_eq_ok.mp h
  cases hw : w.writer with
  | none =>
    rw [hw] at h
    obtain ⟨-, -, h⟩ := bind_eq_ok.mp h
    obtain rfl := Except.ok.inj h
    exact hown
  | some b =>
    rw [hw] at h
    obtain ⟨-, -, h⟩ := bind_eq_ok.mp h
    obtain rfl := Except.ok.inj h
    exact ⟨hown.sync_size, hown.lt, hown.apart⟩

theorem ownBytes_appendLoop {fuel : ℕ} (hown : m.OwnBytes)
    (h : ChainBufferWriter.appendLoop hint fuel m w slice = .ok (w', m')) : m'.OwnBytes := by
  induction fuel generalizing m w slice with
  | zero =>
    rw [ChainBufferWriter.appendLoop] at h
    split_ifs at h
    simp only [pure_eq_ok, Except.ok.injEq, Prod.mk.injEq] at h
    exact h.2 ▸ hown
  | succ fuel ih =>
    rw [ChainBufferWriter.appendLoop] at h
    split_ifs at h
    · simp only [pure_eq_ok, Except.ok.injEq, Prod.mk.injEq] at h
      exact h.2 ▸ hown
    · obtain ⟨⟨ready, w₁, m₁⟩, hprepare, h⟩ := bind_eq_ok.mp h
      obtain ⟨m₂, hconfirm, h⟩ := bind_eq_ok.mp h
      exact ih (ownBytes_confirmAppend (ownBytes_prepareAppend hown hprepare) hconfirm) h

/-- A slice that shares no byte with a node may become one. -/
theorem ownBytes_appendBufferSlice {s : BufferSlice} (hown : m.OwnBytes)
    (hlt : ∀ b, s.buffer = some b → b < m.nextBuffer)
    (hapart : ∀ n < m.nextNode, Apart (m.node n) { slice := s, hasWriter := true })
    (h : w.appendBufferSlice m s = .ok (w', m')) : m'.OwnBytes := by
  obtain ⟨ready, -, h⟩ := bind_eq_ok.mp h
  split_ifs at h with hsmall
  · exact ownBytes_appendLoop hown h
  · cases htail : w.tail with
    | none => simp [htail] at h
    | some tail =>
      simp only [htail, pure_eq_ok, Except.ok.injEq, Prod.mk.injEq] at h
      obtain ⟨-, rfl⟩ := h
      exact ownBytes_link (ownBytes_pushNode hown (by simp) hlt hapart) tail _

theorem ofSlice_node (m : Memory) (bytes : List UInt8) :
    (BufferSlice.ofSlice m bytes).2.nextNode = m.nextNode ∧
      (BufferSlice.ofSlice m bytes).2.node = m.node := by
  simp only [BufferSlice.ofSlice, BufferSlice.ofSize, BufferSlice.copyFrom,
    BufferAllocator.createReader]
  split_ifs
  · rw [BufferAllocator.createReaderFast]
    rcases m.bufferRawTls with _ | b
    · exact ⟨rfl, rfl⟩
    · simp only
      split_ifs <;> exact ⟨rfl, rfl⟩
  · exact ⟨rfl, rfl⟩

/-- A new slice shares no byte with a node. -/
theorem ofSlice_apart (hm : m.Ok) (bytes : List UInt8) {n : ℕ} (hn : n < m.nextNode) :
    Apart (m.node n) { slice := (BufferSlice.ofSlice m bytes).1, hasWriter := true } := by
  obtain ⟨b, m', hroom, hsize⟩ := BufferSlice.ofSize_eq hm bytes.length
  simp only [BufferSlice.ofSlice, hsize]
  intro hbuf
  have hnode := (hroom.ext.other n hn (by simp)).1
  refine ⟨?_, rfl, .inl ((hroom.ext.readable (hm.slice n hn)).within b hbuf).2⟩
  by_contra hs
  exact hroom.sync_ne n (hn.trans_le hroom.ext.nextNode_le) (by simpa [hnode] using hs)
    (hnode ▸ hbuf)

/-- `append(BufferSlice(slice))` -/
theorem ownBytes_appendNewSlice {bytes : List UInt8} {s : BufferSlice} {m₁ : Memory} (hm : m.Ok)
    (hown : m.OwnBytes) (hs : BufferSlice.ofSlice m bytes = (s, m₁)) (hread : s.Readable m₁)
    (hext : Extends m [] m₁ []) (h : w.appendBufferSlice m₁ s = .ok (w', m')) : m'.OwnBytes := by
  obtain ⟨hnext, hnode⟩ := ofSlice_node m bytes
  rw [hs] at hnext hnode
  refine ownBytes_appendBufferSlice ⟨?_, fun n hn b hb ↦ ?_, ?_⟩ (fun b hb ↦ (hread.within b hb).1)
    (fun n hn ↦ ?_) h
  · rw [hnext, hnode]
    exact hown.sync_size
  · rw [hnext] at hn
    rw [hnode] at hb
    exact (hown.lt n hn b hb).trans_le hext.nextBuffer_le
  · rw [hnext, hnode]
    exact hown.apart
  · rw [hnext] at hn
    have happart := ofSlice_apart hm bytes hn
    rw [hs] at happart
    rw [hnode]
    exact happart

/-! ## Writing at an iterator -/

section CopyFrom

variable {bytes : List UInt8} {pre : List ℕ} {n b : ℕ}

theorem copyFrom_eq (hb : it.reader.buffer = some b) (bytes : List UInt8) :
    it.reader.copyFrom m bytes = m.setBuffer b { m.buffer b with
      data := patch (m.buffer b).data it.reader.begin_ bytes } := by
  simp only [BufferSlice.copyFrom, hb, patch]

/-- No more bytes are written than the iterator shows. -/
theorem sameShape_copyFrom (hread : it.reader.Readable m) (hbytes : bytes.length ≤ it.reader.size) :
    SameShape m (it.reader.copyFrom m bytes) := by
  rcases hb : it.reader.buffer with _ | b
  · rw [BufferSlice.copyFrom, hb]
    exact ⟨rfl, rfl, rfl, rfl, fun _ ↦ rfl⟩
  · rw [copyFrom_eq hb]
    refine ⟨rfl, rfl, rfl, rfl, fun c ↦ ?_⟩
    by_cases hc : c = b
    · subst hc
      have hsize := hread.begin_add_size_le
      have hend := (hread.within c hb).2
      rw [Memory.setBuffer_self]
      exact length_patch (by omega)
    · rw [Memory.setBuffer_of_ne _ _ _ hc]

/-- The node of the iterator gets the bytes. -/
theorem content_copyFrom_self (hn : AtNode m pre n it) (hb : it.reader.buffer = some b)
    (hbytes : bytes.length ≤ it.reader.size) :
    content (it.reader.copyFrom m bytes) n =
      patch (content m n) (it.reader.begin_ - (m.node n).slice.begin_) bytes := by
  have hslice : (m.node n).slice.buffer = some b := hn.buffer_eq ▸ hb
  have hend := (hn.readable.within b hb).2
  have hsize := hn.readable.begin_add_size_le
  have hbegin := Nat.add_sub_cancel' hn.le_begin
  rw [copyFrom_eq hb]
  cases hs : (m.node n).syncFlag with
  | true =>
    rw [content_of_sync hs hslice, content_of_sync (m := m.setBuffer b _) hs hslice,
      Memory.setBuffer_self, ← drop_patch (hn.le_begin.trans (by omega)), hbegin]
    rfl
  | false =>
    -- Nothing is written behind the end of the slice.
    have hend' := hn.end_eq (hn.sync_eq.trans hs)
    have htake : ((m.buffer b).data.take (m.node n).slice.end_).length = (m.node n).slice.end_ :=
      List.length_take_of_le (by omega)
    simp only [content_of_not_sync hs, content_of_not_sync (m := m.setBuffer b _) hs,
      BufferSlice.asSlice, Memory.setBuffer_node, hslice, Memory.setBuffer_self]
    have hbefore : it.reader.begin_ ≤ (m.node n).slice.end_ := by omega
    rw [take_patch (by omega) (by omega),
      ← drop_patch ((hn.le_begin.trans hbefore).trans htake.ge), hbegin]

/-- The other nodes keep theirs. -/
theorem content_copyFrom_other (hm : m.Ok) (hown : m.OwnBytes) (hn : AtNode m pre n it)
    (hlt : n < m.nextNode) (hbytes : bytes.length ≤ it.reader.size) {k : ℕ} (hk : k < m.nextNode)
    (hne : k ≠ n) : content (it.reader.copyFrom m bytes) k = content m k := by
  obtain ⟨b, hb⟩ := Option.isSome_iff_exists.mp (hm.buffer n hlt)
  obtain ⟨c, hc⟩ := Option.isSome_iff_exists.mp (hm.buffer k hk)
  have hbuf := hn.buffer_eq.trans hb
  rw [copyFrom_eq hbuf]
  by_cases hcb : c = b
  · obtain ⟨hs, hs', happart⟩ := hown.apart k hk n hlt hne (hc.trans (hcb ▸ hb.symm))
    have hend := hn.end_eq (hn.sync_eq.trans hs')
    have hwithin := (hn.readable.within b hbuf).2
    have hsize := hn.readable.begin_add_size_le
    have hle := hn.readable.begin_le
    have hbegin := hn.le_begin
    subst hcb
    simp only [content_of_not_sync hs, content_of_not_sync (m := m.setBuffer c _) hs,
      BufferSlice.asSlice, Memory.setBuffer_node, hc, Memory.setBuffer_self]
    rcases happart with hbefore | hbehind
    · rw [take_patch_of_le (by omega) (by omega)]
    · rw [List.drop_take, drop_patch_of_le (by omega) (by omega), List.drop_take]
  · exact content_congr rfl rfl hc (by rw [Memory.setBuffer_of_ne _ _ _ hcb])

/-- So the bytes of the chain at the offset of the iterator are replaced. -/
theorem stream_copyFrom (hm : m.Ok) (hown : m.OwnBytes) (hc : Chain m ns true)
    (hat : At m ns true it) (hbytes : bytes.length ≤ it.reader.size) :
    stream (it.reader.copyFrom m bytes) ns = patch (stream m ns) it.offset bytes := by
  rcases hat with ⟨pre, n, post, rfl, hn⟩ | hd
  · have hlt := hc.lt n (by simp)
    obtain ⟨b, hb⟩ := Option.isSome_iff_exists.mp (hm.buffer n hlt)
    have hnodup := hc.nodup
    have hother : ∀ k ∈ pre ++ n :: post, k ≠ n →
        content (it.reader.copyFrom m bytes) k = content m k := fun k hk ↦
      content_copyFrom_other hm hown hn hlt hbytes (hc.lt k hk)
    have hpre : stream (it.reader.copyFrom m bytes) pre = stream m pre := by
      refine stream_congr fun k hk ↦ hother k (by simp [hk]) ?_
      rintro rfl
      exact (List.nodup_append.mp hnodup).2.2 k hk k (by simp) rfl
    have hpost : stream (it.reader.copyFrom m bytes) post = stream m post := by
      refine stream_congr fun k hk ↦ hother k (by simp [hk]) ?_
      rintro rfl
      exact (List.nodup_cons.mp (List.nodup_append.mp hnodup).2.1).1 hk
    have hfits : it.reader.begin_ - (m.node n).slice.begin_ + bytes.length ≤
        (content m n).length := by
      have := hn.asSlice_prefix.length_le
      have := hn.begin_le (hm.buffer n hlt)
      rw [hn.readable.length_asSlice, List.length_drop] at *
      omega
    rw [stream_append, stream_append, stream_cons, stream_cons, hpre, hpost,
      content_copyFrom_self hn (hn.buffer_eq.trans hb) hbytes, hn.offset_eq, patch_append_right,
      patch_append_left hfits]
  · exact absurd hd.closed (by simp)

end CopyFrom

end PxcCore.Buffer
