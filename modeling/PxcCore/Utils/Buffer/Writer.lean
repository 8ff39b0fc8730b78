import PxcCore.Utils.Buffer.Fifo
import PxcCore.Utils.Buffer.Growth
import PxcCore.Utils.Buffer.Iterator

/-!
# The writer

Each way to append to a chain puts the bytes behind those that the chain has.
-/

namespace PxcCore.Buffer

open Lib

/-- A writer of the chain `ns`, which holds the bytes of a channel.  Its buffer is that of the last
node, unless the last node holds a slice of somebody else. -/
structure WriterAt (m : Memory) (ns : List ℕ) (w : ChainBufferWriter) (ch : Channel) : Prop where
  chain : Chain m ns ch.isOpen
  bytes : stream m ns = ch.bytes
  tail : ch.isOpen = true → ∃ init t, ns = init ++ [t] ∧ w.tail = some t ∧
    w.writer = if (m.node t).syncFlag then (m.node t).slice.buffer else none
  closed : ch.isOpen = false → w.tail = none
  head : w.head_ = if ch.hasHead then ns.head? else none
  head_open : ch.hasHead = true → ch.isOpen = true

variable {m : Memory} {ns : List ℕ} {w : ChainBufferWriter} {ch : Channel}

namespace WriterAt

theorem lt (h : WriterAt m ns w ch) : ∀ n ∈ ns, n < m.nextNode := h.chain.lt

theorem tail_isSome (h : WriterAt m ns w ch) (hopen : ch.isOpen = true) : w.tail.isSome := by
  obtain ⟨init, t, -, htail, -⟩ := h.tail hopen
  simp [htail]

/-- A writer of another chain is not concerned. -/
theorem other {m' : Memory} {ks ks' : List ℕ} (h : WriterAt m ns w ch)
    (hext : Extends m ks m' ks') (hdisj : ∀ n ∈ ns, n ∉ ks) : WriterAt m' ns w ch where
  chain := hext.chain_other h.chain hdisj
  bytes := (hext.stream_other h.lt hdisj).trans h.bytes
  tail hopen := by
    obtain ⟨init, t, rfl, htail, hwriter⟩ := h.tail hopen
    have ht : t ∈ init ++ [t] := by simp
    refine ⟨init, t, rfl, htail, ?_⟩
    rw [(hext.other t (h.lt t ht) (hdisj t ht)).1]
    exact hwriter
  closed := h.closed
  head := h.head
  head_open := h.head_open

/-! ## Appending in place -/

/-- The bytes that the buffer of the last node has room for are appended to it. -/
theorem confirmAppend_spec (hm : m.Ok) (h : WriterAt m ns w ch) (hopen : ch.isOpen = true)
    (bytes : List UInt8) (hpos : 0 < BufferWriter.prepareAppend m w.writer)
    (hroom : bytes.length ≤ BufferWriter.prepareAppend m w.writer) :
    ∃ m', w.confirmAppend m bytes = .ok m' ∧ m'.Ok ∧
      WriterAt m' ns w { ch with bytes := ch.bytes ++ bytes } ∧ Extends m ns m' ns := by
  obtain ⟨init, t, hns, htail, hwriter⟩ := h.tail hopen
  have ht : t < m.nextNode := h.lt t (by simp [hns])
  obtain ⟨b, hb⟩ : ∃ b, w.writer = some b := by
    rcases hw : w.writer with _ | b
    · simp [hw, BufferWriter.prepareAppend] at hpos
    · exact ⟨b, rfl⟩
  rw [hb] at hwriter hpos hroom
  -- the last node is synchronized with this buffer
  have hsync : (m.node t).syncFlag = true := by
    by_contra hs
    simp [hs] at hwriter
  rw [if_pos hsync] at hwriter
  have hlast : ∀ n < m.nextNode, (m.node n).syncFlag = true → (m.node n).slice.buffer = some b →
      ∃ init, ns = init ++ [n] := by
    intro n hn hs hnb
    obtain rfl := hm.sync_inj n hn t ht hs hsync (hnb.trans hwriter)
    exact ⟨init, hns⟩
  have hext := Extends.extendBuffer hm b bytes h.lt h.chain.nodup hlast
  have hend : (m.buffer b).end_ + bytes.length ≤ (m.buffer b).dataSize := by
    simp only [BufferWriter.prepareAppend] at hpos hroom
    omega
  refine ⟨m.extendBuffer b bytes, ?_, hm.extendBuffer b bytes, ?_, hext⟩
  · simp [ChainBufferWriter.confirmAppend, h.tail_isSome hopen, hb, BufferWriter.confirmAppend,
      hend]
  · refine ⟨⟨h.chain.lt, h.chain.sorted, h.chain.linked⟩, ?_, ?_, h.closed, h.head, h.head_open⟩
    · have hinit : stream (m.extendBuffer b bytes) init = stream m init := by
        refine stream_congr fun n hn ↦ ?_
        obtain ⟨pre, post, rfl⟩ := List.append_of_mem hn
        exact hext.init pre n (post ++ [t]) (by simp [hns]) (by simp)
      show stream _ ns = ch.bytes ++ bytes
      rw [← h.bytes, hns, stream_append, stream_append, hinit, stream_cons, stream_cons,
        content_extendBuffer_self hm bytes ht hsync hwriter.symm]
      simp
    · intro _
      refine ⟨init, t, hns, htail, ?_⟩
      rw [hb, Memory.extendBuffer, Memory.setBuffer_node, if_pos hsync, hwriter]

/-! ## Linking a node -/

/-- A node is linked behind the last one. -/
theorem link_spec (hm : m.Ok) (h : WriterAt m ns w ch) {t : ℕ} (slice : BufferSlice)
    (syncFlag : Bool) (hopen : ch.isOpen = true) (htail : w.tail = some t)
    (hlink : Linkable m slice syncFlag) (newWriter : Option ℕ)
    (hwriter : newWriter = if syncFlag then slice.buffer else none) {m' : Memory}
    (hm' : m' = ChainBufferWriter.link
      (ChainBufferWriter.createNode m slice syncFlag).2 t m.nextNode) :
    m'.Ok ∧ Extends m ns m' (ns ++ [m.nextNode]) ∧
      WriterAt m' (ns ++ [m.nextNode]) { w with writer := newWriter, tail := some m.nextNode }
        { ch with bytes := ch.bytes ++ content m' m.nextNode } ∧
      m'.node m.nextNode = { slice := slice, syncFlag := syncFlag, hasWriter := true } ∧
      m'.buffer = m.buffer := by
  obtain ⟨init, t', hns, htail', -⟩ := h.tail hopen
  obtain rfl : t' = t := Option.some.inj (htail'.symm.trans htail)
  have ht : t' < m.nextNode := h.lt t' (by simp [hns])
  set node : ChainBufferNode := { slice := slice, syncFlag := syncFlag, hasWriter := true }
  have hpush : (m.pushNode node).Ok := hm.pushNode hlink
  have hext : Extends m ns (m.pushNode node) (ns ++ [m.nextNode]) := .pushNode node h.lt
  have hext' : Extends m ns m' (ns ++ [m.nextNode]) := by
    subst hm'
    exact hext.trans (.setNode (by simp [hns]) rfl rfl)
  have hnew : m'.node m.nextNode = node := by
    subst hm'
    exact (Memory.setNode_of_ne _ _ _ (Nat.ne_of_gt ht)).trans (Memory.pushNode_self m node)
  have hlast : m'.node t' = { m.node t' with next := some m.nextNode, hasWriter := false } := by
    subst hm'
    refine (Memory.setNode_self _ _ _).trans ?_
    rw [show (ChainBufferWriter.createNode m slice syncFlag).2 = m.pushNode node from rfl,
      Memory.pushNode_of_lt m node ht]
  have hinit : ∀ n ∈ ns, n ≠ t' → m'.node n = m.node n := by
    intro n hn hne
    subst hm'
    exact (Memory.setNode_of_ne _ _ _ hne).trans (Memory.pushNode_of_lt m node (h.lt n hn))
  have hcontent : ∀ n ∈ ns, content m' n = content m n := by
    intro n hn
    refine content_of_buffer_eq ?_ (hext'.slice n hn) (hext'.syncFlag n hn)
    subst hm'
    rfl
  refine ⟨by subst hm'; exact hpush.setNode rfl rfl, hext', ?_, hnew, by subst hm'; rfl⟩
  have hnodup := h.chain.nodup
  refine ⟨⟨?_, ?_, ?_⟩, ?_, ?_, fun hclosed ↦ absurd (hopen.symm.trans hclosed) (by simp), ?_,
    h.head_open⟩
  · intro n hn
    have hle : m.nextNode + 1 = m'.nextNode := by
      subst hm'
      rfl
    rcases List.mem_append.mp hn with hmem | hmem
    · have := h.lt n hmem
      omega
    · rw [List.mem_singleton] at hmem
      omega
  · refine List.pairwise_append.mpr ⟨h.chain.sorted, List.pairwise_singleton _ _, ?_⟩
    intro n hn k hk
    rw [List.mem_singleton.mp hk]
    exact h.lt n hn
  · intro pre n post hsplit
    rcases List.eq_nil_or_concat post with rfl | ⟨post', k, rfl⟩
    · -- the new node
      obtain ⟨-, hlast'⟩ := List.append_inj' hsplit rfl
      obtain rfl : m.nextNode = n := by simpa using hlast'
      rw [hnew]
      simp [node, hopen]
    · have hsplit' : (ns ++ [m.nextNode] : List ℕ) = (pre ++ n :: post') ++ [k] := by
        simpa using hsplit
      obtain ⟨hns', hk⟩ := List.append_inj' hsplit' rfl
      obtain rfl : m.nextNode = k := by simpa using hk
      obtain ⟨hnext, hhas⟩ := h.chain.linked pre n post' hns'
      rcases List.eq_nil_or_concat post' with rfl | ⟨post'', l, rfl⟩
      · obtain rfl : t' = n := by
          have heq := hns.symm.trans hns'
          obtain ⟨-, hlast'⟩ := List.append_inj' heq rfl
          simpa using hlast'
        rw [hlast]
        simp
      · have hne : n ≠ t' := by
          rintro rfl
          have heq : init ++ [n] = (pre ++ n :: post'') ++ [l] := by
            rw [← hns, hns']
            simp
          obtain ⟨hinit', hl⟩ := List.append_inj' heq rfl
          rw [hns, hinit'] at hnodup
          have := (List.nodup_append.mp hnodup).2.2 n (by simp) n (by simp)
          exact this rfl
        rw [hinit n (by simp [hns']) hne, hnext, hhas]
        cases post'' <;> simp
  · show stream m' (ns ++ [m.nextNode]) = ch.bytes ++ content m' m.nextNode
    rw [stream_append, stream_congr hcontent, h.bytes]
    simp
  · intro _
    exact ⟨ns, m.nextNode, rfl, rfl, by rw [hnew]; exact hwriter⟩
  · rw [show ({ w with writer := newWriter, tail := some m.nextNode } : ChainBufferWriter).head_ =
      w.head_ from rfl, h.head]
    simp [hns]

theorem createWriter_eq (m : Memory) (hint : ℕ) :
    ∃ size, 0 < size ∧
      BufferAllocator.createWriter m hint = (m.nextBuffer, m.pushBuffer { dataSize := size }) := by
  refine ⟨_, ?_, rfl⟩
  calc 0 < if hint < 512 then 512 else hint := by split <;> omega
    _ ≤ roundUp (if hint < 512 then 512 else hint) := le_roundUp _

/-- A new buffer can be linked as a whole. -/
theorem linkable_pushBuffer (hm : m.Ok) (size : ℕ) :
    Linkable (m.pushBuffer { dataSize := size })
      (BufferSlice.ofBuffer (m.pushBuffer { dataSize := size }) m.nextBuffer) true where
  readable := by
    refine ⟨by simp [BufferSlice.ofBuffer], fun b hb ↦ ?_⟩
    obtain rfl : m.nextBuffer = b := Option.some.inj hb
    exact ⟨Nat.lt_succ_self _, by simp [BufferSlice.ofBuffer, BufferRaw.end_]⟩
  buffer := rfl
  sync_ne _ n hn _ hb := by
    have := ((hm.slice n hn).within _ hb).1
    omega
  tls_ne _ htls := by
    have := hm.tls_lt _ htls
    omega

/-- `prepare_append_alloc` links a node with an empty buffer. -/
theorem prepareAppendAlloc_spec (hm : m.Ok) (h : WriterAt m ns w ch) (hopen : ch.isOpen = true)
    (hint : ℕ) :
    ∃ ready m' ns' w', w.prepareAppendAlloc m hint = .ok (ready, w', m') ∧ 0 < ready ∧
      BufferWriter.prepareAppend m' w'.writer = ready ∧ m'.Ok ∧ WriterAt m' ns' w' ch ∧
      Extends m ns m' ns' := by
  obtain ⟨init, t, hns, htail, hwriter⟩ := h.tail hopen
  obtain ⟨size, hpos, hcreate⟩ := createWriter_eq m (if hint < 1024 then 4096 else hint)
  have hm₁ := hm.pushBuffer { dataSize := size }
  have hext₁ := Extends.pushBuffer hm { dataSize := size } h.lt
  have h₁ : WriterAt (m.pushBuffer { dataSize := size }) ns w ch := by
    refine ⟨⟨h.chain.lt, h.chain.sorted, h.chain.linked⟩, ?_, h.tail, h.closed, h.head,
      h.head_open⟩
    rw [← h.bytes]
    exact stream_congr fun n hn ↦ content_pushBuffer hm _ (h.lt n hn)
  obtain ⟨hok, hext, hw, hnode, hbuffer⟩ := link_spec hm₁ h₁ _ _ hopen htail
    (linkable_pushBuffer hm size) (some m.nextBuffer) rfl rfl
  set m' := ChainBufferWriter.link (ChainBufferWriter.createNode (m.pushBuffer { dataSize := size })
    (BufferSlice.ofBuffer (m.pushBuffer { dataSize := size }) m.nextBuffer) true).2 t
    (m.pushBuffer { dataSize := size }).nextNode
  have hready : BufferWriter.prepareAppend m' (some m.nextBuffer) = size := by
    simp [BufferWriter.prepareAppend, hbuffer, BufferRaw.end_]
  -- the new node holds nothing yet
  have hnil : content m' (m.pushBuffer { dataSize := size }).nextNode = [] := by
    rw [content_of_sync (b := m.nextBuffer) (by rw [hnode]) (by rw [hnode]; rfl), hbuffer]
    simp
  rw [hnil, List.append_nil] at hw
  refine ⟨_, m', _, _, ?_, hready.symm ▸ hpos, rfl, hok, hw, hext₁.trans hext⟩
  simp only [ChainBufferWriter.prepareAppendAlloc, htail, hcreate]
  rfl

/-- `prepare_append` gives room behind the bytes of the channel. -/
theorem prepareAppend_spec (hm : m.Ok) (h : WriterAt m ns w ch) (hopen : ch.isOpen = true)
    (hint : ℕ) :
    ∃ ready m' ns' w', w.prepareAppend m hint = .ok (ready, w', m') ∧ 0 < ready ∧
      BufferWriter.prepareAppend m' w'.writer = ready ∧ m'.Ok ∧ WriterAt m' ns' w' ch ∧
      Extends m ns m' ns' := by
  have hin : w.prepareAppendInplace m = .ok (BufferWriter.prepareAppend m w.writer) := by
    simp [ChainBufferWriter.prepareAppendInplace, h.tail_isSome hopen]
  by_cases hzero : BufferWriter.prepareAppend m w.writer = 0
  · obtain ⟨ready, m', ns', w', halloc, hrest⟩ := prepareAppendAlloc_spec hm h hopen hint
    exact ⟨ready, m', ns', w', by
      simp [ChainBufferWriter.prepareAppend, hin, hzero, halloc], hrest⟩
  · exact ⟨_, m, ns, w, by simp [ChainBufferWriter.prepareAppend, hin, hzero],
      Nat.pos_of_ne_zero hzero, rfl, hm, h, .refl⟩

/-! ## Appending -/

theorem appendLoop_spec (hint fuel : ℕ) :
    ∀ (m : Memory) (ns : List ℕ) (w : ChainBufferWriter) (ch : Channel) (slice : List UInt8),
    m.Ok → WriterAt m ns w ch → ch.isOpen = true → slice.length ≤ fuel →
    ∃ m' ns' w', ChainBufferWriter.appendLoop hint fuel m w slice = .ok (w', m') ∧ m'.Ok ∧
      WriterAt m' ns' w' { ch with bytes := ch.bytes ++ slice } ∧ Extends m ns m' ns' := by
  induction fuel with
  | zero =>
    intro m ns w ch slice hm h hopen hfuel
    obtain rfl := List.length_eq_zero_iff.mp (Nat.le_zero.mp hfuel)
    exact ⟨m, ns, w, by simp [ChainBufferWriter.appendLoop], hm, by simpa using h, .refl⟩
  | succ fuel ih =>
    intro m ns w ch slice hm h hopen hfuel
    by_cases hnil : slice = []
    · subst hnil
      exact ⟨m, ns, w, by simp [ChainBufferWriter.appendLoop], hm, by simpa using h, .refl⟩
    obtain ⟨ready, m₁, ns₁, w₁, hprep, hpos, hready, hm₁, h₁, hext₁⟩ :=
      h.prepareAppend_spec hm hopen (max slice.length hint)
    have hlen := List.length_pos_of_ne_nil hnil
    obtain ⟨m₂, hconf, hm₂, h₂, hext₂⟩ := h₁.confirmAppend_spec hm₁ hopen
      (slice.take (min ready slice.length)) (by omega) (by
        rw [hready, List.length_take]
        omega)
    obtain ⟨m₃, ns₃, w₃, hrun, hm₃, h₃, hext₃⟩ := ih m₂ ns₁ w₁ _
      (slice.drop (min ready slice.length)) hm₂ h₂ hopen (by
        rw [List.length_drop]
        omega)
    refine ⟨m₃, ns₃, w₃, ?_, hm₃, ?_, (hext₁.trans hext₂).trans hext₃⟩
    · rw [ChainBufferWriter.appendLoop, if_neg hnil]
      simp only [hprep, ok_bind, hconf, hrun]
    · simpa only [List.append_assoc, List.take_append_drop] using h₃

/-- `append(Slice slice, size_t hint)` -/
theorem append_spec (hm : m.Ok) (h : WriterAt m ns w ch) (hopen : ch.isOpen = true)
    (slice : List UInt8) (hint : ℕ) :
    ∃ m' ns' w', w.append m slice hint = .ok (w', m') ∧ m'.Ok ∧
      WriterAt m' ns' w' { ch with bytes := ch.bytes ++ slice } ∧ Extends m ns m' ns' :=
  appendLoop_spec hint slice.length m ns w ch slice hm h hopen (le_refl _)

/-- `append(BufferSlice slice)` -/
theorem appendBufferSlice_spec (hm : m.Ok) (h : WriterAt m ns w ch) (hopen : ch.isOpen = true)
    {slice : BufferSlice} (hs : slice.Readable m) :
    ∃ m' ns' w', w.appendBufferSlice m slice = .ok (w', m') ∧ m'.Ok ∧
      WriterAt m' ns' w' { ch with bytes := ch.bytes ++ slice.asSlice m } ∧
      Extends m ns m' ns' := by
  have hin : w.prepareAppendInplace m = .ok (BufferWriter.prepareAppend m w.writer) := by
    simp [ChainBufferWriter.prepareAppendInplace, h.tail_isSome hopen]
  by_cases hsmall : slice.size < 256 ∨ slice.size ≤ BufferWriter.prepareAppend m w.writer
  · obtain ⟨m', ns', w', hrun, hrest⟩ := h.append_spec hm hopen (slice.asSlice m) 0
    exact ⟨m', ns', w', by simp [ChainBufferWriter.appendBufferSlice, hin, hsmall, hrun], hrest⟩
  · obtain ⟨init, t, hns, htail, -⟩ := h.tail hopen
    have hbuffer : slice.buffer.isSome := by
      rcases hb : slice.buffer with _ | b
      · simp [BufferSlice.size, BufferSlice.isNull, hb] at hsmall
      · rfl
    obtain ⟨hok, hext, hw, hnode, hbuf⟩ := link_spec hm h slice false hopen htail
      ⟨hs, hbuffer, by simp, by simp⟩ none rfl rfl
    refine ⟨_, _, { w with writer := none, tail := some m.nextNode }, ?_, hok, ?_, hext⟩
    · simp only [ChainBufferWriter.appendBufferSlice, hin, ok_bind, hsmall, if_false, htail]
      rfl
    · rw [content_of_not_sync (by rw [hnode]), hnode, hext.asSlice hs] at hw
      exact hw

/-! ## The beginning and the end of a writer -/

/-- A new writer has a chain of one node without bytes. -/
theorem new_spec (hm : m.Ok) :
    ∃ m' w', ChainBufferWriter.new m = (w', m') ∧ m'.Ok ∧ WriterAt m' [m.nextNode] w' {} ∧
      Extends m [] m' [m.nextNode] := by
  obtain ⟨size, -, hcreate⟩ := createWriter_eq m 0
  have hm₁ := hm.pushBuffer { dataSize := size }
  set node : ChainBufferNode :=
    { slice := BufferSlice.ofBuffer (m.pushBuffer { dataSize := size }) m.nextBuffer
      syncFlag := true, hasWriter := true }
  set m' := (m.pushBuffer { dataSize := size }).pushNode node
  have hnode : m'.node m.nextNode = node :=
    Memory.pushNode_self (m.pushBuffer { dataSize := size }) node
  have hext : Extends m [] m' [m.nextNode] :=
    (Extends.pushBuffer hm { dataSize := size } (by simp)).trans (.pushNode node (by simp))
  refine ⟨m',
    { writer := some m.nextBuffer, tail := some m.nextNode, head_ := some m.nextNode }, ?_,
    hm₁.pushNode (linkable_pushBuffer hm size), ?_, hext⟩
  · simp only [ChainBufferWriter.new, hcreate, ChainBufferWriter.createNode]
    rfl
  refine ⟨⟨fun n hn ↦ ?_, List.pairwise_singleton _ _, fun pre n post hsplit ↦ ?_⟩, ?_,
    fun _ ↦ ⟨[], m.nextNode, rfl, rfl, by rw [hnode]; rfl⟩, fun hf ↦ (by cases hf), rfl,
    fun _ ↦ rfl⟩
  · rw [List.mem_singleton.mp hn]
    exact Nat.lt_succ_self _
  · obtain ⟨rfl, rfl, rfl⟩ : pre = [] ∧ n = m.nextNode ∧ post = [] := by
      rcases pre with _ | ⟨k, pre⟩
      · simpa using hsplit.symm
      · simp at hsplit
    rw [hnode]
    exact ⟨rfl, rfl⟩
  · rw [stream_cons, stream_nil, List.append_nil,
      content_of_sync (b := m.nextBuffer) (by rw [hnode]) (by rw [hnode]; rfl),
      show m'.buffer = (m.pushBuffer { dataSize := size }).buffer from rfl]
    simp

/-- `extract_reader`: the reader begins at the first node and is synchronized at once. -/
theorem extractReader_spec (hm : m.Ok) (h : WriterAt m ns w ch) (hhead : ch.hasHead = true) :
    ∃ n end_, ns.head? = some n ∧ w.extractReader m =
        .ok ({ begin_ := ChainBufferIterator.new m n, end_ }, { w with head_ := none }) ∧
      At m ns ch.isOpen (ChainBufferIterator.new m n) ∧ At m ns ch.isOpen end_ ∧
      end_.offset = (stream m ns).length ∧
      WriterAt m ns { w with head_ := none } { ch with hasHead := false } := by
  obtain ⟨init, t, hns, -⟩ := h.tail (h.head_open hhead)
  obtain ⟨n, ks, hcons⟩ : ∃ n ks, ns = n :: ks := by
    rw [hns]
    cases init with
    | nil => exact ⟨t, [], rfl⟩
    | cons n init => exact ⟨n, init ++ [t], rfl⟩
  have hsome : w.head_ = some n := by
    rw [h.head, hhead, hcons]
    rfl
  have hbegin : At m ns ch.isOpen (ChainBufferIterator.new m n) :=
    .node [] n ks hcons (AtNode.loadHead hm (h.lt n (by simp [hcons])) rfl)
  obtain ⟨end_, hrun, hend, hoffset⟩ :=
    ChainBufferIterator.advanceTillEnd_spec hm h.chain hbegin
  refine ⟨n, end_, by rw [hcons, List.head?_cons], ?_, hbegin, hend, hoffset,
    ⟨h.chain, h.bytes, h.tail, h.closed, rfl, fun hf ↦ (by cases hf)⟩⟩
  simp [ChainBufferWriter.extractReader, hsome, ChainBufferReader.new, hrun]

/-- The destructor closes the chain. -/
theorem destroy_spec (hm : m.Ok) (h : WriterAt m ns w ch) (hopen : ch.isOpen = true) :
    ∃ m' w', w.destroy m = (w', m') ∧ m'.Ok ∧
      WriterAt m' ns w' { ch with isOpen := false, hasHead := false } ∧ Extends m ns m' ns := by
  obtain ⟨init, t, hns, htail, -⟩ := h.tail hopen
  have hext : Extends m ns (m.setNode t { m.node t with hasWriter := false }) ns :=
    .setNode (by simp [hns]) rfl rfl
  refine ⟨m.setNode t { m.node t with hasWriter := false }, {},
    by simp only [ChainBufferWriter.destroy, htail], hm.setNode rfl rfl, ?_, hext⟩
  refine ⟨⟨h.chain.lt, h.chain.sorted, fun pre n post hsplit ↦ ?_⟩, ?_, fun hf ↦ (by cases hf),
    fun _ ↦ rfl, rfl, fun hf ↦ (by cases hf)⟩
  · obtain ⟨hnext, hwriter⟩ := h.chain.linked pre n post hsplit
    by_cases hn : n = t
    · subst hn
      rw [Memory.setNode_self]
      exact ⟨hnext, rfl⟩
    · rw [Memory.setNode_of_ne _ _ _ hn]
      refine ⟨hnext, ?_⟩
      -- only the last node has a writer
      rcases List.eq_nil_or_concat post with rfl | ⟨post', k, rfl⟩
      · obtain ⟨-, hlast⟩ := List.append_inj' (hns.symm.trans hsplit) rfl
        exact absurd (by simpa using hlast.symm) hn
      · rw [hwriter]
        cases post' <;> simp
  · refine Eq.trans (stream_congr fun n _ ↦ ?_) h.bytes
    refine content_of_buffer_eq rfl ?_ ?_
    · apply setNode_slice
      rfl
    · apply setNode_syncFlag
      rfl

/-! ## A writer that was destroyed -/

theorem destroy_closed (h : WriterAt m ns w ch) (hclosed : ch.isOpen = false) :
    w.destroy m = (w, m) ∧ { ch with isOpen := false, hasHead := false } = ch := by
  refine ⟨by simp [ChainBufferWriter.destroy, h.closed hclosed], ?_⟩
  have hhead : ch.hasHead = false := by
    by_contra hhead
    exact absurd ((h.head_open (by simpa using hhead)).symm.trans hclosed) (by simp)
  cases ch
  simp_all

theorem append_closed (h : WriterAt m ns w ch) (hclosed : ch.isOpen = false) (slice : List UInt8)
    (hint : ℕ) : w.append m slice hint = if slice = [] then .ok (w, m) else .error .check := by
  have htail := h.closed hclosed
  rcases slice with _ | ⟨b, slice⟩
  · simp [ChainBufferWriter.append, ChainBufferWriter.appendLoop]
  · simp [ChainBufferWriter.append, ChainBufferWriter.appendLoop, ChainBufferWriter.prepareAppend,
      ChainBufferWriter.prepareAppendInplace, htail]

theorem appendBufferSlice_closed (h : WriterAt m ns w ch) (hclosed : ch.isOpen = false)
    (slice : BufferSlice) : w.appendBufferSlice m slice = .error .check := by
  simp [ChainBufferWriter.appendBufferSlice, ChainBufferWriter.prepareAppendInplace,
    h.closed hclosed]

end WriterAt

end PxcCore.Buffer
