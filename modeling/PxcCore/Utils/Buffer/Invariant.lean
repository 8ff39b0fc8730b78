import PxcCore.Utils.Buffer.Chain

/-!
# What holds of memory and of chains

A chain is a list of nodes, each linked to the next one, and holds the bytes of its nodes one after
the other.  Only the last node may grow, and only in its own buffer: nodes that are synchronized
with their buffers have different buffers.
-/

namespace PxcCore.Buffer

open Lib

/-! ## Slices -/

/-- A slice of bytes that are written. -/
structure BufferSlice.Readable (m : Memory) (s : BufferSlice) : Prop where
  begin_le : s.begin_ ≤ s.end_
  within : ∀ b, s.buffer = some b → b < m.nextBuffer ∧ s.end_ ≤ (m.buffer b).data.length

namespace BufferSlice

theorem Readable.length_asSlice {m : Memory} {s : BufferSlice} (h : s.Readable m) :
    (s.asSlice m).length = s.size := by
  rcases hb : s.buffer with _ | b
  · simp [asSlice, size, isNull, hb]
  · have := (h.within b hb).2
    simp only [asSlice, size, isNull, hb, List.length_drop, List.length_take, Option.isNone_some,
      Bool.false_eq_true, if_false]
    omega

theorem readable_default (m : Memory) : ({} : BufferSlice).Readable m :=
  ⟨le_refl _, by simp⟩

theorem Readable.movedFrom {m : Memory} {s : BufferSlice} (h : s.Readable m) :
    s.movedFrom.Readable m :=
  ⟨h.begin_le, by simp [BufferSlice.movedFrom]⟩

/-- `as_slice` of what is left after some bytes were read. -/
theorem asSlice_confirm (m : Memory) (s : BufferSlice) (k : ℕ) :
    ({ s with begin_ := s.begin_ + k } : BufferSlice).asSlice m = (s.asSlice m).drop k := by
  rcases hb : s.buffer with _ | b <;> simp [asSlice, hb]

theorem Readable.confirm {m : Memory} {s : BufferSlice} (h : s.Readable m) {k : ℕ}
    (hk : s.begin_ + k ≤ s.end_) : ({ s with begin_ := s.begin_ + k } : BufferSlice).Readable m :=
  ⟨hk, h.within⟩

theorem size_le (s : BufferSlice) : s.size ≤ s.end_ - s.begin_ := by
  simp only [size]
  split <;> omega

theorem Readable.begin_add_size_le {m : Memory} {s : BufferSlice} (h : s.Readable m) :
    s.begin_ + s.size ≤ s.end_ := by
  have := s.size_le
  have := h.begin_le
  omega

theorem truncate_eq (s : BufferSlice) (limit : ℕ) :
    s.truncate limit = { s with end_ := if limit < s.size then s.begin_ + limit else s.end_ } := by
  simp only [truncate]
  split <;> rfl

theorem Readable.truncate {m : Memory} {s : BufferSlice} (h : s.Readable m) (limit : ℕ) :
    (s.truncate limit).Readable m := by
  have hs := h.begin_add_size_le
  have hb := h.begin_le
  rw [truncate_eq]
  split
  · refine ⟨Nat.le_add_right _ _, fun b hb ↦ ⟨(h.within b hb).1, ?_⟩⟩
    have := (h.within b hb).2
    show s.begin_ + limit ≤ _
    omega
  · exact ⟨hb, h.within⟩

theorem Readable.asSlice_truncate {m : Memory} {s : BufferSlice} (h : s.Readable m) (limit : ℕ) :
    (s.truncate limit).asSlice m = (s.asSlice m).take limit := by
  by_cases hl : limit < s.size
  · rcases hb : s.buffer with _ | b
    · simp [BufferSlice.truncate, asSlice, hl, hb]
    · have hs := h.begin_add_size_le
      have hle : s.begin_ + limit ≤ s.end_ := by omega
      simp [BufferSlice.truncate, asSlice, hl, hb, List.take_drop, List.take_take, hle]
  · have : s.truncate limit = s := by simp [BufferSlice.truncate, hl]
    rw [this, List.take_of_length_le (by rw [h.length_asSlice]; omega)]

theorem Readable.size_truncate {m : Memory} {s : BufferSlice} (h : s.Readable m) (limit : ℕ) :
    (s.truncate limit).size = min limit s.size := by
  rw [← (h.truncate limit).length_asSlice, h.asSlice_truncate, List.length_take,
    h.length_asSlice]

theorem confirmRead_of_le {m : Memory} {s : BufferSlice} (h : s.Readable m) {k : ℕ}
    (hk : k ≤ s.size) : s.confirmRead k = .ok { s with begin_ := s.begin_ + k } := by
  have := h.begin_add_size_le
  have hle : s.begin_ + k ≤ s.end_ := by omega
  simp [BufferSlice.confirmRead, hle]

end BufferSlice

/-! ## Memory -/

/-- What holds of memory at all times. -/
structure Memory.Ok (m : Memory) : Prop where
  slice : ∀ n < m.nextNode, (m.node n).slice.Readable m
  buffer : ∀ n < m.nextNode, (m.node n).slice.buffer.isSome
  sync_inj : ∀ n < m.nextNode, ∀ k < m.nextNode, (m.node n).syncFlag = true →
    (m.node k).syncFlag = true → (m.node n).slice.buffer = (m.node k).slice.buffer → n = k
  tls_lt : ∀ b, m.bufferRawTls = some b → b < m.nextBuffer
  tls_ne : ∀ b, m.bufferRawTls = some b → ∀ n < m.nextNode, (m.node n).syncFlag = true →
    (m.node n).slice.buffer ≠ some b

/-- The buffer of a node, without its part before the slice. -/
theorem content_of_sync {m : Memory} {n b : ℕ} (hs : (m.node n).syncFlag = true)
    (hb : (m.node n).slice.buffer = some b) :
    content m n = (m.buffer b).data.drop (m.node n).slice.begin_ := by
  simp [content, hs, hb]

theorem content_of_not_sync {m : Memory} {n : ℕ} (hs : (m.node n).syncFlag = false) :
    content m n = (m.node n).slice.asSlice m := by
  simp [content, hs]

/-- The content of a node depends on its slice, its flag and its buffer only. -/
theorem content_congr {m m' : Memory} {n b : ℕ} (hslice : (m'.node n).slice = (m.node n).slice)
    (hsync : (m'.node n).syncFlag = (m.node n).syncFlag)
    (hb : (m.node n).slice.buffer = some b) (hdata : (m'.buffer b).data = (m.buffer b).data) :
    content m' n = content m n := by
  simp [content, hslice, hsync, hb, BufferSlice.asSlice, hdata]

/-- The content of a node without synchronization does not change when its buffer grows. -/
theorem content_of_prefix {m m' : Memory} {n b : ℕ}
    (hslice : (m'.node n).slice = (m.node n).slice)
    (hsync : (m'.node n).syncFlag = (m.node n).syncFlag) (hs : (m.node n).syncFlag = false)
    (hb : (m.node n).slice.buffer = some b)
    (hend : (m.node n).slice.end_ ≤ (m.buffer b).data.length)
    (hdata : (m.buffer b).data <+: (m'.buffer b).data) : content m' n = content m n := by
  obtain ⟨rest, hrest⟩ := hdata
  simp [content, hslice, hsync, hs, hb, BufferSlice.asSlice, ← hrest,
    List.take_append_of_le_length hend]

/-! ## Chains -/

/-- The bytes of a chain of nodes. -/
def stream (m : Memory) (ns : List ℕ) : List UInt8 := ns.flatMap (content m)

@[simp] theorem stream_nil (m : Memory) : stream m [] = [] := rfl

@[simp] theorem stream_append (m : Memory) (ns ks : List ℕ) :
    stream m (ns ++ ks) = stream m ns ++ stream m ks := by
  simp [stream]

@[simp] theorem stream_cons (m : Memory) (n : ℕ) (ns : List ℕ) :
    stream m (n :: ns) = content m n ++ stream m ns := by
  simp [stream]

theorem stream_congr {m m' : Memory} {ns : List ℕ} (h : ∀ n ∈ ns, content m' n = content m n) :
    stream m' ns = stream m ns := by
  induction ns with
  | nil => rfl
  | cons n ns ih =>
    rw [stream_cons, stream_cons, h n List.mem_cons_self,
      ih fun k hk ↦ h k (List.mem_cons_of_mem _ hk)]

/-- These nodes are linked in this order, and the last one has a writer if the chain is open. -/
structure Chain (m : Memory) (ns : List ℕ) (isOpen : Bool) : Prop where
  lt : ∀ n ∈ ns, n < m.nextNode
  sorted : ns.Pairwise (· < ·)
  linked : ∀ pre n post, ns = pre ++ n :: post →
    (m.node n).next = post.head? ∧ (m.node n).hasWriter = (isOpen && post.isEmpty)

namespace Chain

variable {m : Memory} {ns : List ℕ} {isOpen : Bool}

theorem nil (m : Memory) : Chain m [] isOpen :=
  ⟨by simp, .nil, by simp⟩

theorem nodup (h : Chain m ns isOpen) : ns.Nodup :=
  h.sorted.imp fun hlt ↦ Nat.ne_of_lt hlt

/-- A chain has no more nodes than there are. -/
theorem length_le (h : Chain m ns isOpen) : ns.length ≤ m.nextNode := by
  have hsub : ns.toFinset ⊆ Finset.range m.nextNode := by
    intro n hn
    exact Finset.mem_range.mpr (h.lt n (List.mem_toFinset.mp hn))
  have := Finset.card_le_card hsub
  rwa [List.toFinset_card_of_nodup h.nodup, Finset.card_range] at this

/-- A chain has no more bytes than there are. -/
theorem length_stream_le (h : Chain m ns isOpen) : (stream m ns).length ≤ m.chainBytes := by
  have hsub : ns.toFinset ⊆ Finset.range m.nextNode := by
    intro n hn
    exact Finset.mem_range.mpr (h.lt n (List.mem_toFinset.mp hn))
  calc (stream m ns).length = (ns.map fun n ↦ (content m n).length).sum := by
        simp [stream, List.length_flatMap]
    _ = ∑ n ∈ ns.toFinset, (content m n).length := (List.sum_toFinset _ h.nodup).symm
    _ ≤ m.chainBytes := Finset.sum_le_sum_of_subset hsub

end Chain

/-! ## Iterators -/

/-- An iterator is at bytes of the node `n`, which may be fewer than the node has by now, and `pre`
are the nodes before it.  `offset_` counts the bytes before the iterator. -/
structure AtNode (m : Memory) (pre : List ℕ) (n : ℕ) (it : ChainBufferIterator) : Prop where
  head_eq : it.head_ = some n
  sync_eq : it.needSync = (m.node n).syncFlag
  buffer_eq : it.reader.buffer = (m.node n).slice.buffer
  le_begin : (m.node n).slice.begin_ ≤ it.reader.begin_
  readable : it.reader.Readable m
  end_eq : it.needSync = false → it.reader.end_ = (m.node n).slice.end_
  offset_eq : it.offset =
    (stream m pre).length + (it.reader.begin_ - (m.node n).slice.begin_)

/-- An iterator is behind the end of a closed chain. -/
structure AtEnd (m : Memory) (ns : List ℕ) (isOpen : Bool) (it : ChainBufferIterator) : Prop where
  closed : isOpen = false
  head_eq : it.head_ = none
  readable : it.reader.Readable m
  empty : it.reader.size = 0
  offset_eq : it.offset = (stream m ns).length

/-- Where an iterator of a chain can be. -/
inductive At (m : Memory) (ns : List ℕ) (isOpen : Bool) (it : ChainBufferIterator) : Prop where
  | node (pre : List ℕ) (n : ℕ) (post : List ℕ) (split : ns = pre ++ n :: post)
    (at_node : AtNode m pre n it)
  | done (at_end : AtEnd m ns isOpen it)

end PxcCore.Buffer
