import PxcCore.Utils.Buffer.Overwrite

/-!
# Contiguous pieces

A chain is read node by node.  What an iterator has before it is a list of pieces, each of which
lies in one node, and `prepare_read` shows the first one.
-/

namespace PxcCore.Buffer

open Lib

/-! ## Definitions -/

/-- The bytes of the nodes from one on. -/
def nodesFrom (m : Memory) : ℕ → Option ℕ → List (List UInt8)
  | 0, _ => []
  | _ + 1, none => []
  | fuel + 1, some n => content m n :: nodesFrom m fuel (m.node n).next

/-- The bytes before an iterator, without the nodes that have none. -/
def ChainBufferIterator.pieces (m : Memory) (it : ChainBufferIterator) : List (List UInt8) :=
  match it.head_ with
  | none => []
  | some n => ((content m n).drop (it.reader.begin_ - (m.node n).slice.begin_) ::
      nodesFrom m m.nextNode (m.node n).next).filter (· ≠ [])

variable {m : Memory} {ns pre post : List ℕ} {n : ℕ} {isOpen : Bool} {it : ChainBufferIterator}

/-! ## Pieces of a chain -/

theorem nodesFrom_eq (hc : Chain m (pre ++ n :: post) isOpen) {fuel : ℕ}
    (hfuel : post.length ≤ fuel) : nodesFrom m fuel (m.node n).next = post.map (content m) := by
  induction post generalizing pre n fuel with
  | nil =>
    rw [(hc.linked pre n [] rfl).1]
    cases fuel <;> rfl
  | cons k post ih =>
    cases fuel with
    | zero => exact absurd hfuel (Nat.not_succ_le_zero _)
    | succ fuel =>
      have hc' : Chain m ((pre ++ [n]) ++ k :: post) isOpen := by simpa using hc
      rw [(hc.linked pre n (k :: post) rfl).1, List.head?_cons, nodesFrom,
        ih hc' (Nat.le_of_succ_le_succ hfuel), List.map_cons]

theorem pieces_eq (hc : Chain m (pre ++ n :: post) isOpen) (hhead : it.head_ = some n) :
    it.pieces m = ((content m n).drop (it.reader.begin_ - (m.node n).slice.begin_) ::
      post.map (content m)).filter (· ≠ []) := by
  have hlength := hc.length_le
  rw [List.length_append, List.length_cons] at hlength
  rw [ChainBufferIterator.pieces, hhead]
  simp only [nodesFrom_eq hc (show post.length ≤ m.nextNode by omega)]

/-- Together they are what is left of the chain. -/
theorem At.flatten_pieces (hm : m.Ok) (hc : Chain m ns isOpen) (hat : At m ns isOpen it) :
    (it.pieces m).flatten = (stream m ns).drop it.offset := by
  rcases hat with ⟨pre, n, post, rfl, hn⟩ | hd
  · rw [pieces_eq hc hn.head_eq, List.flatten_filter_ne_nil, List.flatten_cons, ← List.flatMap_def,
      hn.offset_eq, stream_append, ← List.drop_drop, List.drop_left, stream_cons,
      List.drop_append_of_le_length (hn.begin_le (hm.buffer n (hc.lt n (by simp))))]
    rfl
  · rw [ChainBufferIterator.pieces, hd.head_eq, hd.offset_eq, List.drop_length]
    rfl

theorem ne_nil_of_mem_pieces {piece : List UInt8} (h : piece ∈ it.pieces m) : piece ≠ [] := by
  rw [ChainBufferIterator.pieces] at h
  cases hhead : it.head_ with
  | none => simp [hhead] at h
  | some n =>
    simp only [hhead] at h
    simpa using (List.mem_filter.mp h).2

/-- There are no more pieces than bytes. -/
theorem length_pieces_le (m : Memory) (it : ChainBufferIterator) :
    (it.pieces m).length ≤ (it.pieces m).flatten.length := by
  rw [List.length_flatten, ← List.length_map (f := List.length)]
  refine List.length_le_sum_of_one_le _ fun n hn ↦ ?_
  obtain ⟨piece, hpiece, rfl⟩ := List.mem_map.mp hn
  exact List.length_pos_of_ne_nil (ne_nil_of_mem_pieces hpiece)

/-! ## What is shown -/

/-- An iterator that comes to a node shows nothing of it or all of it. -/
theorem AtNode.loadHead_whole (hat : AtNode m pre n (it.loadHead m n)) (hown : m.OwnBytes)
    (hn : n < m.nextNode) :
    (it.loadHead m n).reader.asSlice m = [] ∨ (it.loadHead m n).reader.asSlice m =
      (content m n).drop ((it.loadHead m n).reader.begin_ - (m.node n).slice.begin_) := by
  cases hs : (m.node n).syncFlag with
  | true =>
    refine .inl (List.eq_nil_of_length_eq_zero ?_)
    rw [hat.readable.length_asSlice]
    exact hown.sync_size n hn hs
  | false =>
    right
    rw [content_of_not_sync hs]
    simp [ChainBufferIterator.loadHead]

/-- The first piece is shown as a whole, and where the iterator is afterwards, nothing is lost. -/
theorem ChainBufferIterator.prepareReadLoop_pieces (hm : m.Ok) (hown : m.OwnBytes)
    (hc : Chain m ns true) (fuel : ℕ) :
    ∀ (pre : List ℕ) (n : ℕ) (post : List ℕ) (it : ChainBufferIterator),
    ns = pre ++ n :: post → AtNode m pre n it →
    (it.reader.asSlice m = [] ∨
      it.reader.asSlice m = (content m n).drop (it.reader.begin_ - (m.node n).slice.begin_)) →
    post.length + 1 ≤ fuel →
    ∃ it', it.prepareReadLoop m fuel = .ok (it'.reader.asSlice m, it') ∧ At m ns true it' ∧
      it'.offset = it.offset ∧ it'.reader.asSlice m = (it.pieces m).headD [] ∧
      it'.pieces m = it.pieces m := by
  induction fuel with
  | zero =>
    intro pre n post it hsplit hn hwhole hfuel
    omega
  | succ fuel ih =>
    intro pre n post it hsplit hn hwhole hfuel
    have hlt := hc.lt n (by simp [hsplit])
    obtain ⟨hnext, hwriter⟩ := hc.linked pre n post hsplit
    obtain ⟨it₁, hsync, hn₁, hoff₁, hbegin₁, hall⟩ := hn.sync_spec (hm.buffer n hlt)
    have hpieces := pieces_eq (hsplit ▸ hc) hn.head_eq
    have hpieces₁ : it₁.pieces m = it.pieces m := by
      rw [pieces_eq (hsplit ▸ hc) hn₁.head_eq, hpieces, hbegin₁]
    by_cases hempty : it.reader.asSlice m = []
    swap
    · -- All of the node is shown already.
      have hshown := hwhole.resolve_left hempty
      refine ⟨it, by simp [ChainBufferIterator.prepareReadLoop, hn.head_eq, hempty],
        .node pre n post hsplit hn, rfl, ?_, rfl⟩
      rw [hpieces, ← hshown, List.filter_cons_of_pos (by simpa using hempty), List.headD_cons]
    rw [← hall] at hpieces
    by_cases hres : it₁.reader.asSlice m = []
    · cases hpost : post with
      | nil =>
        rw [hpost] at hsplit hwriter hpieces
        exact ⟨it₁, by simp [ChainBufferIterator.prepareReadLoop, hn.head_eq, hempty, hsync, hres,
          hwriter], .node pre n [] hsplit hn₁, hoff₁, by simp [hpieces, hres], hpieces₁⟩
      | cons k post' =>
        rw [hpost] at hsplit hnext hwriter hfuel hpieces
        have hk := hc.lt k (by simp [hsplit])
        have hsplit' : ns = (pre ++ [n]) ++ k :: post' := by simp [hsplit]
        have hend : it₁.offset = (stream m (pre ++ [n])).length := by
          have hle := hn.begin_le (hm.buffer n hlt)
          rw [hall, List.drop_eq_nil_iff] at hres
          rw [hoff₁, hn.offset_eq]
          simp only [stream_append, stream_cons, stream_nil, List.append_nil, List.length_append]
          omega
        have hload : AtNode m (pre ++ [n]) k (it₁.loadHead m k) := AtNode.loadHead hm hk hend
        have hskip : (it₁.loadHead m k).pieces m = it.pieces m := by
          rw [pieces_eq (hsplit' ▸ hc) hload.head_eq, hpieces, hres]
          simp [ChainBufferIterator.loadHead]
        obtain ⟨it', hrun, hat, hoff, hshown, hleft⟩ := ih (pre ++ [n]) k post' (it₁.loadHead m k)
          hsplit' hload (hload.loadHead_whole hown hk) (by simpa using hfuel)
        refine ⟨it', ?_, hat, hoff.trans hoff₁, hskip ▸ hshown, hleft.trans hskip⟩
        simpa [ChainBufferIterator.prepareReadLoop, hn.head_eq, hempty, hsync, hres, hwriter,
          hnext] using hrun
    · refine ⟨it₁, by simp [ChainBufferIterator.prepareReadLoop, hn.head_eq, hempty, hsync, hres],
        .node pre n post hsplit hn₁, hoff₁, ?_, hpieces₁⟩
      rw [hpieces, List.filter_cons_of_pos (by simpa using hres), List.headD_cons]

theorem ChainBufferIterator.prepareRead_pieces (hm : m.Ok) (hown : m.OwnBytes)
    (hc : Chain m ns true)
    (hat : At m ns true it) (hread : it.reader.size = 0) :
    ∃ it', it.prepareRead m = .ok (it'.reader.asSlice m, it') ∧ At m ns true it' ∧
      it'.offset = it.offset ∧ it'.reader.asSlice m = (it.pieces m).headD [] ∧
      it'.pieces m = it.pieces m := by
  rcases hat with ⟨pre, n, post, hsplit, hn⟩ | hd
  · have hempty : it.reader.asSlice m = [] :=
      List.eq_nil_of_length_eq_zero (hn.readable.length_asSlice.trans hread)
    refine prepareReadLoop_pieces hm hown hc _ pre n post it hsplit hn (.inl hempty) ?_
    have := hc.length_le
    rw [hsplit, List.length_append, List.length_cons] at this
    omega
  · exact absurd hd.closed (by simp)

/-- After the first piece has been overwritten and read, the others are left. -/
theorem pieces_confirm (hm : m.Ok) (hown : m.OwnBytes) (hc : Chain m ns true)
    (hat : At m ns true it) {it' : ChainBufferIterator} {piece bytes : List UInt8}
    {rest : List (List UInt8)} (hpieces : it.pieces m = piece :: rest)
    (hshown : it.reader.asSlice m = piece) (hbytes : bytes.length = piece.length)
    (hconfirm : it.confirmRead piece.length = .ok it') :
    it'.pieces (it.reader.copyFrom m bytes) = rest := by
  rcases hat with ⟨pre, n, post, rfl, hn⟩ | hd
  · have hlt := hc.lt n (by simp)
    have hsize : it.reader.size = piece.length := by rw [← hn.readable.length_asSlice, hshown]
    have hshape : SameShape m (it.reader.copyFrom m bytes) :=
      sameShape_copyFrom hn.readable (hbytes.trans hsize.symm).le
    -- The first piece is all that is left of this node.
    have hfirst := hshown ▸ hn.asSlice_prefix
    have hne : piece ≠ [] := ne_nil_of_mem_pieces (hpieces ▸ List.mem_cons_self)
    have hleft : (content m n).drop (it.reader.begin_ - (m.node n).slice.begin_) ≠ [] := by
      intro hnil
      exact hne (List.prefix_nil.mp (hnil ▸ hfirst))
    rw [pieces_eq hc hn.head_eq, List.filter_cons_of_pos (by simpa using hleft),
      List.cons.injEq] at hpieces
    obtain ⟨hpiece, hrest⟩ := hpieces
    have hdone : (content (it.reader.copyFrom m bytes) n).drop
        (it.reader.begin_ + piece.length - (m.node n).slice.begin_) = [] := by
      have hlength := congrArg List.length hpiece
      have hle := hn.le_begin
      rw [List.length_drop] at hlength
      rw [List.drop_eq_nil_iff, hshape.length_content]
      omega
    have hothers : post.map (content (it.reader.copyFrom m bytes)) = post.map (content m) := by
      refine List.map_congr_left fun k hk ↦ ?_
      refine content_copyFrom_other hm hown hn hlt (hbytes.trans hsize.symm).le
        (hc.lt k (by simp [hk])) ?_
      rintro rfl
      exact (List.nodup_cons.mp (List.nodup_append.mp hc.nodup).2.1).1 hk
    rw [ChainBufferIterator.confirmRead, BufferSlice.confirmRead_of_le hn.readable hsize.ge,
      ok_bind, pure_eq_ok, Except.ok.injEq] at hconfirm
    have hhead' : it'.head_ = some n := hconfirm ▸ hn.head_eq
    have hbegin' : it'.reader.begin_ = it.reader.begin_ + piece.length := by rw [← hconfirm]
    rw [pieces_eq (hshape.chain hc) hhead', hothers, ← hrest, hshape.node, hbegin', hdone,
      List.filter_cons_of_neg (by simp)]
  · exact absurd hd.closed (by simp)

end PxcCore.Buffer
