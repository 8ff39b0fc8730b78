import PxcCore.Utils.Buffer.Invariant

/-!
# How memory grows

Appending to a chain makes its last node longer or links new nodes to it.  All other nodes keep
their bytes, and so does every slice that a client holds.
-/

namespace PxcCore.Buffer

open Lib

/-! ## One change of memory -/

namespace Memory

variable (m : Memory) (b n : ℕ) (raw : BufferRaw) (node : ChainBufferNode)

@[simp] theorem setNode_nextNode : (m.setNode n node).nextNode = m.nextNode := rfl

@[simp] theorem setNode_nextBuffer : (m.setNode n node).nextBuffer = m.nextBuffer := rfl

@[simp] theorem setNode_buffer : (m.setNode n node).buffer = m.buffer := rfl

@[simp] theorem setNode_tls : (m.setNode n node).bufferRawTls = m.bufferRawTls := rfl

@[simp] theorem setNode_self : (m.setNode n node).node n = node := Function.update_self _ _ _

theorem setNode_of_ne {k : ℕ} (h : k ≠ n) : (m.setNode n node).node k = m.node k :=
  Function.update_of_ne h _ _

@[simp] theorem pushNode_nextNode : (m.pushNode node).nextNode = m.nextNode + 1 := rfl

@[simp] theorem pushNode_nextBuffer : (m.pushNode node).nextBuffer = m.nextBuffer := rfl

@[simp] theorem pushNode_buffer : (m.pushNode node).buffer = m.buffer := rfl

@[simp] theorem pushNode_tls : (m.pushNode node).bufferRawTls = m.bufferRawTls := rfl

@[simp] theorem pushNode_self : (m.pushNode node).node m.nextNode = node :=
  Function.update_self _ _ _

theorem pushNode_of_lt {k : ℕ} (h : k < m.nextNode) : (m.pushNode node).node k = m.node k :=
  Function.update_of_ne (Nat.ne_of_lt h) _ _

@[simp] theorem pushBuffer_nextNode : (m.pushBuffer raw).nextNode = m.nextNode := rfl

@[simp] theorem pushBuffer_nextBuffer : (m.pushBuffer raw).nextBuffer = m.nextBuffer + 1 := rfl

@[simp] theorem pushBuffer_node : (m.pushBuffer raw).node = m.node := rfl

@[simp] theorem pushBuffer_tls : (m.pushBuffer raw).bufferRawTls = m.bufferRawTls := rfl

@[simp] theorem pushBuffer_self : (m.pushBuffer raw).buffer m.nextBuffer = raw :=
  Function.update_self _ _ _

theorem pushBuffer_of_lt {c : ℕ} (h : c < m.nextBuffer) :
    (m.pushBuffer raw).buffer c = m.buffer c :=
  Function.update_of_ne (Nat.ne_of_lt h) _ _

@[simp] theorem setBuffer_nextNode : (m.setBuffer b raw).nextNode = m.nextNode := rfl

@[simp] theorem setBuffer_nextBuffer : (m.setBuffer b raw).nextBuffer = m.nextBuffer := rfl

@[simp] theorem setBuffer_node : (m.setBuffer b raw).node = m.node := rfl

@[simp] theorem setBuffer_tls : (m.setBuffer b raw).bufferRawTls = m.bufferRawTls := rfl

@[simp] theorem setBuffer_self : (m.setBuffer b raw).buffer b = raw := Function.update_self _ _ _

theorem setBuffer_of_ne {c : ℕ} (h : c ≠ b) : (m.setBuffer b raw).buffer c = m.buffer c :=
  Function.update_of_ne h _ _

end Memory

/-! ## Growth -/

/-- Memory `m'` is memory `m` after something was appended to the chain `ns`, which is now `ns'`. -/
structure Extends (m : Memory) (ns : List ℕ) (m' : Memory) (ns' : List ℕ) : Prop where
  nextBuffer_le : m.nextBuffer ≤ m'.nextBuffer
  nextNode_le : m.nextNode ≤ m'.nextNode
  data : ∀ b < m.nextBuffer, (m.buffer b).data <+: (m'.buffer b).data
  other : ∀ n < m.nextNode, n ∉ ns → m'.node n = m.node n ∧ content m' n = content m n
  slice : ∀ n ∈ ns, (m'.node n).slice = (m.node n).slice
  syncFlag : ∀ n ∈ ns, (m'.node n).syncFlag = (m.node n).syncFlag
  init : ∀ pre n post, ns = pre ++ n :: post → post ≠ [] → content m' n = content m n
  added : ∃ new, ns' = ns ++ new ∧ ∀ n ∈ new, m.nextNode ≤ n

namespace Extends

variable {m m' m'' : Memory} {ns ns' ns'' : List ℕ}

theorem refl : Extends m ns m ns :=
  ⟨le_refl _, le_refl _, fun _ _ ↦ List.prefix_refl _, fun _ _ _ ↦ ⟨rfl, rfl⟩, fun _ _ ↦ rfl,
    fun _ _ ↦ rfl, fun _ _ _ _ _ ↦ rfl, [], by simp, by simp⟩

theorem trans (h : Extends m ns m' ns') (h' : Extends m' ns' m'' ns'') :
    Extends m ns m'' ns'' := by
  obtain ⟨new, rfl, hnew⟩ := h.added
  obtain ⟨new', rfl, hnew'⟩ := h'.added
  refine ⟨h.nextBuffer_le.trans h'.nextBuffer_le, h.nextNode_le.trans h'.nextNode_le, ?_, ?_, ?_,
    ?_, ?_, new ++ new', List.append_assoc _ _ _, ?_⟩
  · intro b hb
    exact (h.data b hb).trans (h'.data b (hb.trans_le h.nextBuffer_le))
  · intro n hn hns
    have hns' : n ∉ ns ++ new := by
      rw [List.mem_append]
      rintro (hmem | hmem)
      · exact hns hmem
      · exact absurd (hnew n hmem) (Nat.not_le.mpr hn)
    obtain ⟨hnode, hcontent⟩ := h.other n hn hns
    obtain ⟨hnode', hcontent'⟩ := h'.other n (hn.trans_le h.nextNode_le) hns'
    exact ⟨hnode'.trans hnode, hcontent'.trans hcontent⟩
  · intro n hn
    exact (h'.slice n (List.mem_append_left _ hn)).trans (h.slice n hn)
  · intro n hn
    exact (h'.syncFlag n (List.mem_append_left _ hn)).trans (h.syncFlag n hn)
  · intro pre n post hsplit hpost
    refine (h'.init pre n (post ++ new) (by simp [hsplit]) (by simp [hpost])).trans
      (h.init pre n post hsplit hpost)
  · intro n hn
    rcases List.mem_append.mp hn with hmem | hmem
    · exact hnew n hmem
    · exact h.nextNode_le.trans (hnew' n hmem)

/-- What is added to memory without a chain is added beside each chain. -/
theorem of_nil (h : Extends m [] m' []) (hlt : ∀ n ∈ ns, n < m.nextNode) :
    Extends m ns m' ns where
  nextBuffer_le := h.nextBuffer_le
  nextNode_le := h.nextNode_le
  data := h.data
  other n hn _ := h.other n hn (by simp)
  slice n hn := by rw [(h.other n (hlt n hn) (by simp)).1]
  syncFlag n hn := by rw [(h.other n (hlt n hn) (by simp)).1]
  init pre n post hsplit _ := (h.other n (hlt n (by simp [hsplit])) (by simp)).2
  added := ⟨[], by simp, by simp⟩

/-- A slice keeps its bytes. -/
theorem readable (h : Extends m ns m' ns') {s : BufferSlice} (hs : s.Readable m) :
    s.Readable m' := by
  refine ⟨hs.begin_le, fun b hb ↦ ?_⟩
  obtain ⟨hlt, hend⟩ := hs.within b hb
  exact ⟨hlt.trans_le h.nextBuffer_le, hend.trans (h.data b hlt).length_le⟩

theorem asSlice (h : Extends m ns m' ns') {s : BufferSlice} (hs : s.Readable m) :
    s.asSlice m' = s.asSlice m := by
  rcases hb : s.buffer with _ | b
  · simp [BufferSlice.asSlice, hb]
  · obtain ⟨hlt, hend⟩ := hs.within b hb
    obtain ⟨rest, hrest⟩ := h.data b hlt
    simp [BufferSlice.asSlice, hb, ← hrest, List.take_append_of_le_length hend]

/-- A chain that nothing was appended to stays as it is. -/
theorem stream_other (h : Extends m ns m' ns') {ks : List ℕ} (hlt : ∀ n ∈ ks, n < m.nextNode)
    (hdisj : ∀ n ∈ ks, n ∉ ns) : stream m' ks = stream m ks :=
  stream_congr fun n hn ↦ (h.other n (hlt n hn) (hdisj n hn)).2

theorem chain_other (h : Extends m ns m' ns') {ks : List ℕ} {isOpen : Bool}
    (hc : Chain m ks isOpen) (hdisj : ∀ n ∈ ks, n ∉ ns) : Chain m' ks isOpen := by
  refine ⟨fun n hn ↦ (hc.lt n hn).trans_le h.nextNode_le, hc.sorted, fun pre n post hsplit ↦ ?_⟩
  have hn : n ∈ ks := by simp [hsplit]
  rw [(h.other n (hc.lt n hn) (hdisj n hn)).1]
  exact hc.linked pre n post hsplit

theorem atNode_of_eq (h : Extends m ns m' ns') {pre : List ℕ} {n : ℕ} {it : ChainBufferIterator}
    (hn : AtNode m pre n it) (hslice : (m'.node n).slice = (m.node n).slice)
    (hsync : (m'.node n).syncFlag = (m.node n).syncFlag)
    (hpre : stream m' pre = stream m pre) : AtNode m' pre n it :=
  ⟨hn.head_eq, by rw [hsync]; exact hn.sync_eq, by rw [hslice]; exact hn.buffer_eq,
    by rw [hslice]; exact hn.le_begin, h.readable hn.readable,
    by rw [hslice]; exact hn.end_eq, by rw [hslice, hpre]; exact hn.offset_eq⟩

/-- An iterator of another chain stays where it is. -/
theorem at_other (h : Extends m ns m' ns') {ks : List ℕ} {isOpen : Bool} {it : ChainBufferIterator}
    (hlt : ∀ n ∈ ks, n < m.nextNode) (hdisj : ∀ n ∈ ks, n ∉ ns) (hat : At m ks isOpen it) :
    At m' ks isOpen it := by
  rcases hat with ⟨pre, n, post, rfl, hn⟩ | hd
  · have hnode := (h.other n (hlt n (by simp)) (hdisj n (by simp))).1
    refine .node pre n post rfl (h.atNode_of_eq hn (by rw [hnode]) (by rw [hnode]) ?_)
    exact h.stream_other (fun k hk ↦ hlt k (by simp [hk])) fun k hk ↦ hdisj k (by simp [hk])
  · refine .done ⟨hd.closed, hd.head_eq, h.readable hd.readable, hd.empty, ?_⟩
    rw [h.stream_other hlt hdisj]
    exact hd.offset_eq

/-- An iterator of the chain stays where it is, also when the chain is closed. -/
theorem at_same (h : Extends m ns m' ns') {it : ChainBufferIterator} (hat : At m ns true it)
    (isOpen : Bool) : At m' ns' isOpen it := by
  obtain ⟨new, rfl, -⟩ := h.added
  rcases hat with ⟨pre, n, post, rfl, hn⟩ | hd
  · refine .node pre n (post ++ new) (by simp) (h.atNode_of_eq hn (h.slice n (by simp))
      (h.syncFlag n (by simp)) (stream_congr fun k hk ↦ ?_))
    obtain ⟨pre₁, pre₂, rfl⟩ := List.append_of_mem hk
    exact h.init pre₁ k (pre₂ ++ n :: post) (by simp) (by simp)
  · exact absurd hd.closed (by simp)

end Extends

/-! ## New buffers -/

section Buffers

variable {m : Memory}

theorem Memory.Ok.pushBuffer (hm : m.Ok) (raw : BufferRaw) : (m.pushBuffer raw).Ok where
  slice n hn := by
    have hs := hm.slice n hn
    refine ⟨hs.begin_le, fun b hb ↦ ?_⟩
    obtain ⟨hlt, hend⟩ := hs.within b hb
    rw [Memory.pushBuffer_of_lt m raw hlt]
    exact ⟨Nat.lt_succ_of_lt hlt, hend⟩
  buffer := hm.buffer
  sync_inj := hm.sync_inj
  tls_lt b hb := Nat.lt_succ_of_lt (hm.tls_lt b hb)
  tls_ne := hm.tls_ne

theorem content_pushBuffer (hm : m.Ok) (raw : BufferRaw) {n : ℕ} (hn : n < m.nextNode) :
    content (m.pushBuffer raw) n = content m n := by
  obtain ⟨b, hb⟩ := Option.isSome_iff_exists.mp (hm.buffer n hn)
  have hlt := ((hm.slice n hn).within b hb).1
  exact content_congr rfl rfl hb (by rw [Memory.pushBuffer_of_lt m raw hlt])

theorem Extends.pushBuffer (hm : m.Ok) (raw : BufferRaw) {ns : List ℕ}
    (hlt : ∀ n ∈ ns, n < m.nextNode) : Extends m ns (m.pushBuffer raw) ns where
  nextBuffer_le := Nat.le_succ _
  nextNode_le := le_refl _
  data b hb := by rw [Memory.pushBuffer_of_lt m raw hb]
  other n hn _ := ⟨rfl, content_pushBuffer hm raw hn⟩
  slice _ _ := rfl
  syncFlag _ _ := rfl
  init pre n post hsplit _ := content_pushBuffer hm raw (hlt n (by simp [hsplit]))
  added := ⟨[], by simp, by simp⟩

/-- The nodes that grow with a buffer are those that are synchronized with it. -/
theorem content_extendBuffer_of_ne (hm : m.Ok) {b n : ℕ} (bytes : List UInt8)
    (hn : n < m.nextNode)
    (hne : (m.node n).syncFlag = true → (m.node n).slice.buffer ≠ some b) :
    content (m.extendBuffer b bytes) n = content m n := by
  obtain ⟨c, hc⟩ := Option.isSome_iff_exists.mp (hm.buffer n hn)
  by_cases hcb : c = b
  · subst hcb
    have hs : (m.node n).syncFlag = false := by
      by_contra hs
      exact hne (by simpa using hs) hc
    refine content_of_prefix rfl rfl hs hc ((hm.slice n hn).within c hc).2 ?_
    simp [Memory.extendBuffer]
  · exact content_congr rfl rfl hc (by rw [Memory.extendBuffer, Memory.setBuffer_of_ne _ _ _ hcb])

theorem content_extendBuffer_self (hm : m.Ok) {b n : ℕ} (bytes : List UInt8) (hn : n < m.nextNode)
    (hs : (m.node n).syncFlag = true) (hb : (m.node n).slice.buffer = some b) :
    content (m.extendBuffer b bytes) n = content m n ++ bytes := by
  have hslice := hm.slice n hn
  have hle := hslice.begin_le.trans (hslice.within b hb).2
  rw [content_of_sync hs hb, content_of_sync (m := m.extendBuffer b bytes) hs hb,
    Memory.extendBuffer, Memory.setBuffer_self, List.drop_append_of_le_length]
  · rfl
  · exact hle

theorem Memory.Ok.extendBuffer (hm : m.Ok) (b : ℕ) (bytes : List UInt8) :
    (m.extendBuffer b bytes).Ok where
  slice n hn := by
    have hs := hm.slice n hn
    refine ⟨hs.begin_le, fun c hc ↦ ?_⟩
    obtain ⟨hlt, hend⟩ := hs.within c hc
    refine ⟨hlt, hend.trans ?_⟩
    by_cases hcb : c = b
    · subst hcb
      simp [Memory.extendBuffer]
    · rw [Memory.extendBuffer, Memory.setBuffer_of_ne _ _ _ hcb]
  buffer := hm.buffer
  sync_inj := hm.sync_inj
  tls_lt := hm.tls_lt
  tls_ne := hm.tls_ne

/-- A buffer grows that at most the last node of the chain is synchronized with. -/
theorem Extends.extendBuffer (hm : m.Ok) (b : ℕ) (bytes : List UInt8) {ns : List ℕ}
    (hlt : ∀ n ∈ ns, n < m.nextNode) (hnodup : ns.Nodup)
    (hlast : ∀ n < m.nextNode, (m.node n).syncFlag = true → (m.node n).slice.buffer = some b →
      ∃ init, ns = init ++ [n]) : Extends m ns (m.extendBuffer b bytes) ns where
  nextBuffer_le := le_refl _
  nextNode_le := le_refl _
  data c _ := by
    by_cases hcb : c = b
    · subst hcb
      simp [Memory.extendBuffer]
    · rw [Memory.extendBuffer, Memory.setBuffer_of_ne _ _ _ hcb]
  other n hn hns := by
    refine ⟨rfl, content_extendBuffer_of_ne hm bytes hn fun hs hb ↦ ?_⟩
    obtain ⟨init, rfl⟩ := hlast n hn hs hb
    exact hns (by simp)
  slice _ _ := rfl
  syncFlag _ _ := rfl
  init pre n post hsplit hpost := by
    have hn := hlt n (by simp [hsplit])
    refine content_extendBuffer_of_ne hm bytes hn fun hs hb ↦ ?_
    -- the last node occurs nowhere else in the chain
    obtain ⟨init, hinit⟩ := hlast n hn hs hb
    rw [hsplit] at hnodup
    obtain ⟨hnot, -⟩ := List.nodup_cons.mp (List.nodup_append.mp hnodup).2.1
    apply hnot
    have hmem : n ∈ (pre ++ n :: post).getLast? := by
      rw [← hsplit, hinit]
      simp
    rw [List.getLast?_append_of_ne_nil _ (by simp), List.getLast?_cons,
      List.getLast?_eq_some_getLast hpost] at hmem
    have heq : n = post.getLast hpost := by simpa using hmem.symm
    rw [heq]
    exact List.getLast_mem hpost
  added := ⟨[], by simp, by simp⟩

end Buffers

/-! ## New nodes -/

section Nodes

variable {m : Memory}

theorem content_of_buffer_eq {m' : Memory} {n : ℕ} (hbuffer : m'.buffer = m.buffer)
    (hslice : (m'.node n).slice = (m.node n).slice)
    (hsync : (m'.node n).syncFlag = (m.node n).syncFlag) : content m' n = content m n := by
  simp [content, hslice, hsync, BufferSlice.asSlice, hbuffer]

/-- A slice that a new node may hold. -/
structure Linkable (m : Memory) (slice : BufferSlice) (syncFlag : Bool) : Prop where
  readable : slice.Readable m
  buffer : slice.buffer.isSome
  sync_ne : syncFlag = true → ∀ n < m.nextNode, (m.node n).syncFlag = true →
    (m.node n).slice.buffer ≠ slice.buffer
  tls_ne : syncFlag = true → m.bufferRawTls ≠ slice.buffer

theorem Memory.Ok.pushNode (hm : m.Ok) {node : ChainBufferNode}
    (h : Linkable m node.slice node.syncFlag) : (m.pushNode node).Ok where
  slice n hn := by
    rcases Nat.lt_succ_iff_lt_or_eq.mp hn with hlt | rfl
    · rw [Memory.pushNode_of_lt m node hlt]
      exact ⟨(hm.slice n hlt).begin_le, (hm.slice n hlt).within⟩
    · rw [Memory.pushNode_self]
      exact ⟨h.readable.begin_le, h.readable.within⟩
  buffer n hn := by
    rcases Nat.lt_succ_iff_lt_or_eq.mp hn with hlt | rfl
    · rw [Memory.pushNode_of_lt m node hlt]
      exact hm.buffer n hlt
    · rw [Memory.pushNode_self]
      exact h.buffer
  sync_inj n hn k hk := by
    rcases Nat.lt_succ_iff_lt_or_eq.mp hn with hnlt | rfl <;>
      rcases Nat.lt_succ_iff_lt_or_eq.mp hk with hklt | rfl
    · rw [Memory.pushNode_of_lt m node hnlt, Memory.pushNode_of_lt m node hklt]
      exact hm.sync_inj n hnlt k hklt
    · rw [Memory.pushNode_of_lt m node hnlt, Memory.pushNode_self]
      exact fun hs hs' heq ↦ absurd heq (h.sync_ne hs' n hnlt hs)
    · rw [Memory.pushNode_of_lt m node hklt, Memory.pushNode_self]
      exact fun hs hs' heq ↦ absurd heq.symm (h.sync_ne hs k hklt hs')
    · exact fun _ _ _ ↦ rfl
  tls_lt := hm.tls_lt
  tls_ne b hb n hn := by
    rcases Nat.lt_succ_iff_lt_or_eq.mp hn with hlt | rfl
    · rw [Memory.pushNode_of_lt m node hlt]
      exact hm.tls_ne b hb n hlt
    · rw [Memory.pushNode_self]
      exact fun hs heq ↦ h.tls_ne hs (hb.trans heq.symm)

theorem setNode_slice {t : ℕ} {node : ChainBufferNode} (h : node.slice = (m.node t).slice)
    (n : ℕ) : ((m.setNode t node).node n).slice = (m.node n).slice := by
  by_cases hn : n = t
  · subst hn
    rw [Memory.setNode_self, h]
  · rw [Memory.setNode_of_ne _ _ _ hn]

theorem setNode_syncFlag {t : ℕ} {node : ChainBufferNode}
    (h : node.syncFlag = (m.node t).syncFlag) (n : ℕ) :
    ((m.setNode t node).node n).syncFlag = (m.node n).syncFlag := by
  by_cases hn : n = t
  · subst hn
    rw [Memory.setNode_self, h]
  · rw [Memory.setNode_of_ne _ _ _ hn]

/-- A node may be given another link and another flag. -/
theorem Memory.Ok.setNode (hm : m.Ok) {t : ℕ} {node : ChainBufferNode}
    (hslice : node.slice = (m.node t).slice) (hsync : node.syncFlag = (m.node t).syncFlag) :
    (m.setNode t node).Ok := by
  have hslice' := setNode_slice hslice
  have hsync' := setNode_syncFlag hsync
  refine ⟨fun n hn ↦ ?_, fun n hn ↦ ?_, fun n hn k hk ↦ ?_, hm.tls_lt, fun b hb n hn ↦ ?_⟩
  · rw [hslice']
    exact ⟨(hm.slice n hn).begin_le, (hm.slice n hn).within⟩
  · rw [hslice']
    exact hm.buffer n hn
  · rw [hslice', hslice', hsync', hsync']
    exact hm.sync_inj n hn k hk
  · rw [hslice', hsync']
    exact hm.tls_ne b hb n hn

theorem Extends.setNode {t : ℕ} {node : ChainBufferNode} {ns : List ℕ} (ht : t ∈ ns)
    (hslice : node.slice = (m.node t).slice) (hsync : node.syncFlag = (m.node t).syncFlag) :
    Extends m ns (m.setNode t node) ns := by
  have hslice' := setNode_slice hslice
  have hsync' := setNode_syncFlag hsync
  refine ⟨le_refl _, le_refl _, fun _ _ ↦ List.prefix_refl _, fun n _ hns ↦ ?_, fun n _ ↦ hslice' n,
    fun n _ ↦ hsync' n, fun _ n _ _ _ ↦ content_of_buffer_eq rfl (hslice' n) (hsync' n),
    [], by simp, by simp⟩
  have hn : n ≠ t := fun h ↦ hns (h ▸ ht)
  exact ⟨Memory.setNode_of_ne _ _ _ hn, content_of_buffer_eq rfl (hslice' n) (hsync' n)⟩

theorem Extends.pushNode (node : ChainBufferNode) {ns : List ℕ}
    (hlt : ∀ n ∈ ns, n < m.nextNode) :
    Extends m ns (m.pushNode node) (ns ++ [m.nextNode]) where
  nextBuffer_le := le_refl _
  nextNode_le := Nat.le_succ _
  data _ _ := List.prefix_refl _
  other n hn _ := ⟨Memory.pushNode_of_lt m node hn,
    content_of_buffer_eq rfl (by rw [Memory.pushNode_of_lt m node hn])
      (by rw [Memory.pushNode_of_lt m node hn])⟩
  slice n hn := by rw [Memory.pushNode_of_lt m node (hlt n hn)]
  syncFlag n hn := by rw [Memory.pushNode_of_lt m node (hlt n hn)]
  init pre n post hsplit _ := by
    have hn := hlt n (by simp [hsplit])
    exact content_of_buffer_eq rfl (by rw [Memory.pushNode_of_lt m node hn])
      (by rw [Memory.pushNode_of_lt m node hn])
  added := ⟨[m.nextNode], rfl, by simp⟩

end Nodes

/-! ## Slices of fresh memory -/

section Slices

variable {m : Memory}

/-- Memory `m'` has what memory `m` has, and the buffer `b` belongs to no node that is synchronized
with its buffer. -/
structure HasRoom (m : Memory) (b : ℕ) (m' : Memory) : Prop where
  ok : m'.Ok
  ext : Extends m [] m' []
  lt : b < m'.nextBuffer
  sync_ne : ∀ n < m'.nextNode, (m'.node n).syncFlag = true → (m'.node n).slice.buffer ≠ some b

namespace HasRoom

variable {b : ℕ} {m' : Memory}

theorem pushBuffer (hm : m.Ok) (raw : BufferRaw) :
    HasRoom m m.nextBuffer (m.pushBuffer raw) where
  ok := hm.pushBuffer raw
  ext := .pushBuffer hm raw (by simp)
  lt := Nat.lt_succ_self _
  sync_ne n hn _ hb := absurd ((hm.slice n hn).within _ hb).1 (lt_irrefl _)

theorem tls (hm : m.Ok) (h : m.bufferRawTls = some b) : HasRoom m b m where
  ok := hm
  ext := .refl
  lt := hm.tls_lt b h
  sync_ne := hm.tls_ne b h

theorem setTls (h : HasRoom m b m') : HasRoom m b { m' with bufferRawTls := some b } where
  ok := ⟨fun n hn ↦ ⟨(h.ok.slice n hn).begin_le, (h.ok.slice n hn).within⟩, h.ok.buffer,
    h.ok.sync_inj, fun c hc ↦ by cases hc; exact h.lt,
    fun c hc n hn hs ↦ by cases hc; exact h.sync_ne n hn hs⟩
  ext := ⟨h.ext.nextBuffer_le, h.ext.nextNode_le, h.ext.data, h.ext.other, h.ext.slice,
    h.ext.syncFlag, h.ext.init, h.ext.added⟩
  lt := h.lt
  sync_ne := h.sync_ne

/-- What is written to the buffer changes nothing else. -/
theorem extendBuffer (h : HasRoom m b m') (bytes : List UInt8) :
    HasRoom m b (m'.extendBuffer b bytes) where
  ok := h.ok.extendBuffer b bytes
  ext := h.ext.trans (.extendBuffer h.ok b bytes (by simp) .nil
    fun n hn hs hb ↦ absurd hb (h.sync_ne n hn hs))
  lt := h.lt
  sync_ne := h.sync_ne

end HasRoom

theorem createReader_eq (hm : m.Ok) (size : ℕ) :
    ∃ b m', HasRoom m b m' ∧ BufferAllocator.createReader m size =
      (b, m'.extendBuffer b (List.replicate (roundUp size) 0)) := by
  by_cases hsize : size < 512
  · have hfresh := (HasRoom.pushBuffer hm { dataSize := roundUp (4096 * 4) }).setTls
    rcases htls : m.bufferRawTls with _ | b
    · exact ⟨_, _, hfresh, by simp [BufferAllocator.createReader, hsize,
        BufferAllocator.createReaderFast, htls, BufferAllocator.createBufferRaw]⟩
    · by_cases hroom : (m.buffer b).dataSize - (m.buffer b).end_ < roundUp size
      · exact ⟨_, _, hfresh, by simp [BufferAllocator.createReader, hsize,
          BufferAllocator.createReaderFast, htls, hroom, BufferAllocator.createBufferRaw]⟩
      · exact ⟨b, m, .tls hm htls, by simp [BufferAllocator.createReader, hsize,
          BufferAllocator.createReaderFast, htls, hroom]⟩
  · exact ⟨_, _, .pushBuffer hm { dataSize := roundUp size }, by
      simp [BufferAllocator.createReader, hsize, BufferAllocator.createBufferRaw]⟩

namespace BufferSlice

/-- The slice of the `size` bytes behind the end of a buffer. -/
def behind (m : Memory) (b size : ℕ) : BufferSlice where
  buffer := some b
  begin_ := (m.buffer b).data.length
  end_ := (m.buffer b).data.length + size

theorem ofSize_eq (hm : m.Ok) (size : ℕ) :
    ∃ b m', HasRoom m b m' ∧ ofSize m size =
      (behind m' b size, m'.extendBuffer b (List.replicate (roundUp size) 0)) := by
  obtain ⟨b, m', hroom, heq⟩ := createReader_eq hm size
  refine ⟨b, m', hroom, ?_⟩
  simp [ofSize, heq, behind, Memory.extendBuffer, BufferRaw.end_]

theorem copyFrom_behind (m : Memory) (b : ℕ) (bytes : List UInt8) (size : ℕ) :
    (behind m b size).copyFrom (m.extendBuffer b (List.replicate (roundUp size) 0)) bytes =
      m.extendBuffer b (bytes ++ List.replicate (roundUp size - bytes.length) 0) := by
  have hpast : (m.buffer b).data.drop ((m.buffer b).data.length + bytes.length) = [] :=
    List.drop_eq_nil_of_le (Nat.le_add_right _ _)
  simp [behind, copyFrom, Memory.extendBuffer, Memory.setBuffer, List.drop_append, hpast]

theorem behind_readable {m' : Memory} {b : ℕ} (h : HasRoom m b m') (bytes : List UInt8) {size : ℕ}
    (hsize : size ≤ bytes.length) : (behind m' b size).Readable (m'.extendBuffer b bytes) := by
  refine ⟨Nat.le_add_right _ _, fun c hc ↦ ?_⟩
  cases hc
  refine ⟨h.lt, ?_⟩
  simp [behind, Memory.extendBuffer, hsize]

theorem asSlice_behind (m : Memory) (b : ℕ) (bytes rest : List UInt8) :
    (behind m b bytes.length).asSlice (m.extendBuffer b (bytes ++ rest)) = bytes := by
  simp [behind, asSlice, Memory.extendBuffer, List.take_append]

/-- `BufferSlice(Slice slice)` holds these bytes. -/
theorem ofSlice_spec (hm : m.Ok) (slice : List UInt8) :
    ∃ s m', ofSlice m slice = (s, m') ∧ m'.Ok ∧ Extends m [] m' [] ∧ s.Readable m' ∧
      s.asSlice m' = slice := by
  obtain ⟨b, m', hroom, heq⟩ := ofSize_eq hm slice.length
  have hbehind := hroom.extendBuffer
    (slice ++ List.replicate (roundUp slice.length - slice.length) 0)
  refine ⟨behind m' b slice.length, _, ?_, hbehind.ok, hbehind.ext,
    behind_readable hroom _ (by simp), asSlice_behind m' b slice _⟩
  simp only [ofSlice, heq, copyFrom_behind]

end BufferSlice

end Slices

end PxcCore.Buffer
