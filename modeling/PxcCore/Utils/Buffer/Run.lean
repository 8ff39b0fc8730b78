import PxcCore.Utils.Buffer.Reader

/-!
# Runs of writers and readers

A program has any number of writers, readers and slices and uses them in any order.  What it sees is
what it would see with byte queues.
-/

namespace PxcCore.Buffer

open Lib

/-! ## Programs -/

/-- The objects of a program. -/
structure World where
  memory : Memory := {}
  writers : List ChainBufferWriter := []
  readers : List ChainBufferReader := []
  slices : List BufferSlice := []

/-- An object by its number. -/
def lookup {α : Type} (objects : List α) (i : ℕ) : Except Fault α :=
  match objects[i]? with
  | none => .error .noObject
  | some a => .ok a

theorem lookup_of_eq {α : Type} {objects : List α} {i : ℕ} {a : α} (h : objects[i]? = some a) :
    lookup objects i = .ok a := by
  simp [lookup, h]

namespace World

/-- One operation. -/
def step (w : World) : Op → Except Fault (Out × World)
  | .createWriter =>
    let (writer, m) := ChainBufferWriter.new w.memory
    return (.unit, { w with memory := m, writers := w.writers ++ [writer] })
  | .destroyWriter c => do
    let writer ← lookup w.writers c
    let (writer, m) := writer.destroy w.memory
    return (.unit, { w with memory := m, writers := w.writers.set c writer })
  | .append c slice hint => do
    let writer ← lookup w.writers c
    let (writer, m) ← writer.append w.memory slice hint
    return (.unit, { w with memory := m, writers := w.writers.set c writer })
  | .appendBufferSlice c s => do
    let writer ← lookup w.writers c
    let slice ← lookup w.slices s
    let (writer, m) ← writer.appendBufferSlice w.memory slice
    return (.unit, { w with
      memory := m
      writers := w.writers.set c writer
      slices := w.slices.set s slice.movedFrom })
  | .appendReader c r => do
    let writer ← lookup w.writers c
    let reader ← lookup w.readers r
    let (writer, reader, m) ← writer.appendReader w.memory reader
    return (.unit, { w with
      memory := m
      writers := w.writers.set c writer
      readers := w.readers.set r reader })
  | .extractReader c => do
    let writer ← lookup w.writers c
    let (reader, writer) ← writer.extractReader w.memory
    return (.unit, { w with
      writers := w.writers.set c writer
      readers := w.readers ++ [reader] })
  | .createSlice bytes =>
    let (slice, m) := BufferSlice.ofSlice w.memory bytes
    return (.unit, { w with memory := m, slices := w.slices ++ [slice] })
  | .cloneSlice s => do
    let slice ← lookup w.slices s
    return (.unit, { w with slices := w.slices ++ [slice] })
  | .truncateSlice s limit => do
    let slice ← lookup w.slices s
    return (.unit, { w with slices := w.slices.set s (slice.truncate limit) })
  | .confirmSlice s size => do
    let slice ← lookup w.slices s
    let slice ← slice.confirmRead size
    return (.unit, { w with slices := w.slices.set s slice })
  | .syncWithWriter r => do
    let reader ← lookup w.readers r
    let reader ← reader.syncWithWriter w.memory
    return (.unit, { w with readers := w.readers.set r reader })
  | .size r => do
    let reader ← lookup w.readers r
    return (.size reader.size, w)
  | .prepareRead r => do
    let reader ← lookup w.readers r
    let (bytes, reader) ← reader.prepareRead w.memory
    return (.slice bytes, { w with readers := w.readers.set r reader })
  | .confirmRead r size => do
    let reader ← lookup w.readers r
    let reader ← reader.confirmRead size
    return (.unit, { w with readers := w.readers.set r reader })
  | .advance r offset dest => do
    let reader ← lookup w.readers r
    let (skipped, copied, reader) ← reader.advance w.memory offset dest
    return (.advanced skipped copied, { w with readers := w.readers.set r reader })
  | .cutHead r offset => do
    let reader ← lookup w.readers r
    let (head, reader) ← reader.cutHead w.memory offset
    return (.unit, { w with readers := w.readers.set r reader ++ [head] })
  | .readAsBufferSlice r limit => do
    let reader ← lookup w.readers r
    let (slice, reader) ← reader.readAsBufferSlice w.memory limit
    return (.slice (slice.asSlice w.memory), { w with
      readers := w.readers.set r reader
      slices := w.slices ++ [slice] })
  | .clone r => do
    let reader ← lookup w.readers r
    return (.unit, { w with readers := w.readers ++ [reader] })
  | .moveAsBufferSlice r => do
    let reader ← lookup w.readers r
    let (slice, reader, m) ← reader.moveAsBufferSlice w.memory
    return (.slice (slice.asSlice m), { w with
      memory := m
      readers := w.readers.set r reader
      slices := w.slices ++ [slice] })

end World

/-! ## The state of a program and its queues -/

/-- The nodes of a channel, if there is one. -/
def nodesOf (chains : ℕ → List ℕ) : Option ℕ → List ℕ
  | none => []
  | some c => chains c

/-- Whether more bytes can come. -/
def Fifo.isOpen (f : Fifo) : Option ℕ → Bool
  | none => false
  | some c => (f.channels[c]?.getD {}).isOpen

theorem Fifo.isOpen_push (f : Fifo) {c : ℕ} {ch : Channel} (hch : f.channels[c]? = some ch)
    (slice : List UInt8) (d : Option ℕ) : (f.push c ch slice).isOpen d = f.isOpen d := by
  have hlt := (List.getElem?_eq_some_iff.mp hch).1
  rcases d with _ | d
  · rfl
  · by_cases hd : d = c
    · subst hd
      simp [Fifo.isOpen, Fifo.push, List.getElem?_set_self hlt, hch]
    · simp [Fifo.isOpen, Fifo.push, List.getElem?_set_ne (Ne.symm hd)]

/-- The objects of a program stand for these queues; `chains` are the nodes of each channel. -/
structure Models (w : World) (chains : ℕ → List ℕ) (f : Fifo) : Prop where
  memory : w.memory.Ok
  fifo : f.Ok
  writers_length : w.writers.length = f.channels.length
  writer : ∀ c wr ch, w.writers[c]? = some wr → f.channels[c]? = some ch →
    WriterAt w.memory (chains c) wr ch
  none : ∀ c, f.channels.length ≤ c → chains c = []
  disjoint : ∀ c d n, n ∈ chains c → n ∈ chains d → c = d
  readers : List.Forall₂ (fun rd cur ↦
    ReaderAt w.memory (nodesOf chains cur.channel) (f.isOpen cur.channel) rd cur)
    w.readers f.readers
  slices : List.Forall₂ (fun sl b ↦ sl.Readable w.memory ∧ sl.asSlice w.memory = b)
    w.slices f.slices

namespace Models

variable {w : World} {chains : ℕ → List ℕ} {f : Fifo}

/-! ### What changes together -/

theorem init : Models {} (fun _ ↦ []) {} where
  memory := ⟨by simp, by simp, by simp, by simp, by simp⟩
  fifo := by simp [Fifo.Ok]
  writers_length := rfl
  writer := by simp
  none _ _ := rfl
  disjoint := by simp
  readers := .nil
  slices := .nil

/-- The chain of a reader. -/
theorem chainOf (h : Models w chains f) {cur : Cursor} (hcur : cur.Ok f) :
    Chain w.memory (nodesOf chains cur.channel) (f.isOpen cur.channel) ∧
      stream w.memory (nodesOf chains cur.channel) = f.bytes cur.channel := by
  rcases hc : cur.channel with _ | c
  · exact ⟨.nil _, rfl⟩
  · have hlt := hcur.channel_lt c hc
    have hlt' : c < w.writers.length := h.writers_length ▸ hlt
    have hwriter := h.writer c _ _ (List.getElem?_eq_getElem hlt') (List.getElem?_eq_getElem hlt)
    simp only [nodesOf, Fifo.isOpen, Fifo.bytes, List.getElem?_eq_getElem hlt, Option.getD_some]
    exact ⟨hwriter.chain, hwriter.bytes⟩

/-- Memory grows beside all chains. -/
theorem grow (h : Models w chains f) {m : Memory} (hm : m.Ok) (hext : Extends w.memory [] m []) :
    Models { w with memory := m } chains f where
  memory := hm
  fifo := h.fifo
  writers_length := h.writers_length
  writer c wr ch hwr hch := (h.writer c wr ch hwr hch).other hext (by simp)
  none := h.none
  disjoint := h.disjoint
  readers := by
    have hreaders := h.readers
    rw [List.forall₂_iff_get] at hreaders ⊢
    refine ⟨hreaders.1, fun i h₁ h₂ ↦ ?_⟩
    have hcur := h.fifo _ (List.get_mem f.readers ⟨i, h₂⟩)
    exact (hreaders.2 i h₁ h₂).other hext (h.chainOf hcur).1.lt (by simp)
  slices := h.slices.imp fun sl b hsl ↦ ⟨hext.readable hsl.1, (hext.asSlice hsl.1).trans hsl.2⟩

/-- Readers and slices are exchanged. -/
theorem exchange (h : Models w chains f) {readers : List ChainBufferReader}
    {cursors : List Cursor} {slices : List BufferSlice} {bytes : List (List UInt8)}
    (hok : ({ f with readers := cursors, slices := bytes } : Fifo).Ok)
    (hreaders : List.Forall₂ (fun rd cur ↦ ReaderAt w.memory (nodesOf chains cur.channel)
      (f.isOpen cur.channel) rd cur) readers cursors)
    (hslices : List.Forall₂ (fun sl b ↦ sl.Readable w.memory ∧ sl.asSlice w.memory = b)
      slices bytes) :
    Models { w with readers := readers, slices := slices } chains
      { f with readers := cursors, slices := bytes } :=
  ⟨h.memory, hok, h.writers_length, h.writer, h.none, h.disjoint, hreaders, hslices⟩

theorem node_lt (h : Models w chains f) {c n : ℕ} (hn : n ∈ chains c) :
    n < w.memory.nextNode := by
  by_cases hc : c < f.channels.length
  · exact (h.writer c _ _ (List.getElem?_eq_getElem (h.writers_length ▸ hc))
      (List.getElem?_eq_getElem hc)).lt n hn
  · rw [h.none c (Nat.le_of_not_lt hc)] at hn
    cases hn

/-- One chain grows, and with it the writer and the channel of this number. -/
theorem update (h : Models w chains f) {c : ℕ} {m : Memory} {ns : List ℕ}
    {writers : List ChainBufferWriter} {channels : List Channel}
    (hlength : writers.length = channels.length) (hc : c < channels.length)
    (hle : f.channels.length ≤ channels.length)
    (hsame : ∀ d, d ≠ c → writers[d]? = w.writers[d]? ∧ channels[d]? = f.channels[d]?)
    (hopen : ∀ ch, f.channels[c]? = some ch → ch.isOpen = true) (hm : m.Ok)
    (hwriter : ∀ wr ch, writers[c]? = some wr → channels[c]? = some ch → WriterAt m ns wr ch)
    (hext : Extends w.memory (chains c) m ns) (hok : ({ f with channels := channels } : Fifo).Ok) :
    Models { w with memory := m, writers := writers } (Function.update chains c ns)
      { f with channels := channels } := by
  have hother : ∀ d, d ≠ c → ∀ n ∈ chains d, n ∉ chains c :=
    fun d hd n hn hn' ↦ hd (h.disjoint d c n hn hn')
  refine ⟨hm, hok, hlength, ?_, ?_, ?_, ?_, ?_⟩
  · intro d wr₀ ch₀ hwr₀ hch₀
    by_cases hd : d = c
    · subst hd
      rw [Function.update_self]
      exact hwriter wr₀ ch₀ hwr₀ hch₀
    · rw [Function.update_of_ne hd]
      exact (h.writer d wr₀ ch₀ ((hsame d hd).1 ▸ hwr₀) ((hsame d hd).2 ▸ hch₀)).other hext
        (hother d hd)
  · intro d (hd : channels.length ≤ d)
    rw [Function.update_of_ne (by omega)]
    exact h.none d (hle.trans hd)
  · -- new nodes are in no other chain
    obtain ⟨new, rfl, hnew⟩ := hext.added
    have hmem : ∀ d n, n ∈ Function.update chains c (chains c ++ new) d →
        n ∈ chains d ∨ (d = c ∧ w.memory.nextNode ≤ n) := by
      intro d n hn
      by_cases hd : d = c
      · subst hd
        rw [Function.update_self] at hn
        exact (List.mem_append.mp hn).imp_right fun hn ↦ ⟨rfl, hnew n hn⟩
      · rw [Function.update_of_ne hd] at hn
        exact .inl hn
    intro d e n hd he
    rcases hmem d n hd with hd' | ⟨hdc, hle⟩ <;> rcases hmem e n he with he' | ⟨hec, hle'⟩
    · exact h.disjoint d e n hd' he'
    · exact absurd (h.node_lt hd') (Nat.not_lt.mpr hle')
    · exact absurd (h.node_lt he') (Nat.not_lt.mpr hle)
    · exact hdc.trans hec.symm
  · have hreaders := h.readers
    rw [List.forall₂_iff_get] at hreaders ⊢
    refine ⟨hreaders.1, fun i h₁ h₂ ↦ ?_⟩
    have hcur := h.fifo _ (List.get_mem f.readers ⟨i, h₂⟩)
    have hrd := hreaders.2 i h₁ h₂
    show ReaderAt m (nodesOf _ (f.readers.get ⟨i, h₂⟩).channel) _ _ (f.readers.get ⟨i, h₂⟩)
    generalize f.readers.get ⟨i, h₂⟩ = cur at hcur hrd ⊢
    have hchain := (h.chainOf hcur).1
    rcases hcd : cur.channel with _ | d
    · rw [hcd] at hrd hchain
      exact hrd.other hext hchain.lt (by simp [nodesOf])
    · rw [hcd] at hrd hchain
      by_cases hd : d = c
      · subst hd
        have hch := List.getElem?_eq_getElem (hcur.channel_lt d hcd)
        simp only [nodesOf, Fifo.isOpen, hch, Option.getD_some, hopen _ hch, Function.update_self]
          at hrd ⊢
        exact hrd.same hext _
      · simp only [nodesOf, Fifo.isOpen, Function.update_of_ne hd, (hsame d hd).2]
          at hrd hchain ⊢
        exact hrd.other hext hchain.lt (hother d hd)
  · exact h.slices.imp fun sl b hsl ↦ ⟨hext.readable hsl.1, (hext.asSlice hsl.1).trans hsl.2⟩

/-- The writer of one channel changes. -/
theorem setWriter (h : Models w chains f) {c : ℕ} {ch ch' : Channel} {wr' : ChainBufferWriter}
    {m : Memory} {ns : List ℕ} (hch : f.channels[c]? = some ch) (hopen : ch.isOpen = true)
    (hm : m.Ok) (hwr' : WriterAt m ns wr' ch') (hext : Extends w.memory (chains c) m ns)
    (hbytes : ch.bytes <+: ch'.bytes) :
    Models { w with memory := m, writers := w.writers.set c wr' } (Function.update chains c ns)
      { f with channels := f.channels.set c ch' } := by
  have hlt := (List.getElem?_eq_some_iff.mp hch).1
  have hlt' : c < w.writers.length := h.writers_length ▸ hlt
  refine h.update (by simp [h.writers_length]) (by simpa using hlt) (by simp) (fun d hd ↦ ?_)
    (fun ch₀ hch₀ ↦ ?_) hm (fun wr₀ ch₀ hwr₀ hch₀ ↦ ?_) hext (h.fifo.setChannel hch hbytes)
  · exact ⟨List.getElem?_set_ne (Ne.symm hd), List.getElem?_set_ne (Ne.symm hd)⟩
  · cases hch.symm.trans hch₀
    exact hopen
  · rw [List.getElem?_set_self hlt', Option.some.injEq] at hwr₀
    rw [List.getElem?_set_self hlt, Option.some.injEq] at hch₀
    exact hwr₀ ▸ hch₀ ▸ hwr'

/-- A writer and a channel are added. -/
theorem addWriter (h : Models w chains f) {wr : ChainBufferWriter} {m : Memory} {ns : List ℕ}
    (hm : m.Ok) (hwr : WriterAt m ns wr {}) (hext : Extends w.memory [] m ns) :
    Models { w with memory := m, writers := w.writers ++ [wr] }
      (Function.update chains f.channels.length ns) { f with channels := f.channels ++ [{}] } := by
  have hlength := h.writers_length
  have hchains := h.none f.channels.length (le_refl _)
  refine h.update (by simp [hlength]) (by simp) (by simp) (fun d hd ↦ ?_) (fun ch hch ↦ ?_) hm
    (fun wr₀ ch₀ hwr₀ hch₀ ↦ ?_) (hchains.symm ▸ hext) (Fifo.Step.createWriter.ok h.fifo)
  · constructor
    · rw [List.getElem?_append, List.getElem?_singleton]
      split
      · rfl
      · rw [if_neg (by omega), List.getElem?_eq_none (by omega)]
    · rw [List.getElem?_append, List.getElem?_singleton]
      split
      · rfl
      · rw [if_neg (by omega), List.getElem?_eq_none (by omega)]
  · simp at hch
  · rw [← hlength] at hwr₀
    simp only [List.getElem?_concat_length, Option.some.injEq] at hwr₀ hch₀
    exact hwr₀ ▸ hch₀ ▸ hwr

/-- Nothing changes. -/
theorem setSame (h : Models w chains f) {c : ℕ} {ch : Channel} {wr : ChainBufferWriter}
    (hwr : w.writers[c]? = some wr) (hch : f.channels[c]? = some ch) :
    Models { w with writers := w.writers.set c wr } chains
      { f with channels := f.channels.set c ch } := by
  rw [set_eq_self hwr, set_eq_self hch]
  exact h

/-- Either there is a writer and a channel of this number, or neither. -/
theorem lookup_writer (h : Models w chains f) (c : ℕ) :
    (∃ wr ch, w.writers[c]? = some wr ∧ f.channels[c]? = some ch ∧
      WriterAt w.memory (chains c) wr ch) ∨
    (w.writers[c]? = Option.none ∧ f.channels[c]? = Option.none) := by
  by_cases hc : c < f.channels.length
  · have hc' : c < w.writers.length := h.writers_length ▸ hc
    have hwr := List.getElem?_eq_getElem hc'
    have hch := List.getElem?_eq_getElem hc
    exact .inl ⟨_, _, hwr, hch, h.writer c _ _ hwr hch⟩
  · right
    have hc' : ¬c < w.writers.length := h.writers_length ▸ hc
    exact ⟨List.getElem?_eq_none (Nat.le_of_not_lt hc'),
      List.getElem?_eq_none (Nat.le_of_not_lt hc)⟩

/-- Either there is a reader of this number, with all that its operations need, or there is none. -/
theorem lookup_reader (h : Models w chains f) (r : ℕ) :
    (∃ rd cur, w.readers[r]? = some rd ∧ f.readers[r]? = some cur ∧ cur.Ok f ∧
      Chain w.memory (nodesOf chains cur.channel) (f.isOpen cur.channel) ∧
      stream w.memory (nodesOf chains cur.channel) = f.bytes cur.channel ∧
      ReaderAt w.memory (nodesOf chains cur.channel) (f.isOpen cur.channel) rd cur) ∨
    (w.readers[r]? = Option.none ∧ f.readers[r]? = Option.none) := by
  rcases forall₂_lookup h.readers r with ⟨rd, cur, hrd, hcur, hat⟩ | hnone
  · have hok := h.fifo cur (List.mem_of_getElem? hcur)
    obtain ⟨hchain, hstream⟩ := h.chainOf hok
    exact .inl ⟨rd, cur, hrd, hcur, hok, hchain, hstream, hat⟩
  · exact .inr hnone

end Models

/-! ## Steps -/

/-- An operation does what it does to queues, or it was not allowed. -/
def StepSpec (w : World) (f : Fifo) (op : Op) : Prop :=
  (∃ out w' f' chains', w.step op = .ok (out, w') ∧ Fifo.Step f op out f' ∧ Models w' chains' f') ∨
    ∃ e, w.step op = .error e ∧ e ≠ .fuel ∧ ¬f.Allowed op

section Steps

variable {w : World} {chains : ℕ → List ℕ} {f : Fifo}

theorem not_lt_of_none {α : Type} {l : List α} {i : ℕ} (h : l[i]? = none) : ¬i < l.length :=
  Nat.not_lt.mpr (List.getElem?_eq_none_iff.mp h)

theorem step_createWriter (h : Models w chains f) : StepSpec w f .createWriter := by
  obtain ⟨m, wr, hnew, hm, hwr, hext⟩ := WriterAt.new_spec h.memory
  exact .inl ⟨_, _, _, _, by simp only [World.step, hnew]; rfl, .createWriter,
    h.addWriter hm hwr hext⟩

theorem step_destroyWriter (h : Models w chains f) (c : ℕ) : StepSpec w f (.destroyWriter c) := by
  rcases h.lookup_writer c with ⟨wr, ch, hwr, hch, hat⟩ | ⟨hwr, hch⟩
  swap
  · exact .inr ⟨.noObject, by simp [World.step, lookup, hwr], by simp, not_lt_of_none hch⟩
  cases hopen : ch.isOpen with
  | true =>
    obtain ⟨m, wr', hrun, hm, hwr', hext⟩ := hat.destroy_spec h.memory hopen
    exact .inl ⟨_, _, _, _, by simp only [World.step, lookup, hwr, hrun, ok_bind]; rfl,
      .destroyWriter hch, h.setWriter hch hopen hm hwr' hext (List.prefix_refl _)⟩
  | false =>
    obtain ⟨hrun, hsame⟩ := hat.destroy_closed hopen
    have hset := h.setSame hwr hch
    rw [← hsame] at hset
    exact .inl ⟨_, _, _, _, by simp only [World.step, lookup, hwr, hrun, ok_bind]; rfl,
      .destroyWriter hch, hset⟩

theorem step_append (h : Models w chains f) (c : ℕ) (slice : List UInt8) (hint : ℕ) :
    StepSpec w f (.append c slice hint) := by
  rcases h.lookup_writer c with ⟨wr, ch, hwr, hch, hat⟩ | ⟨hwr, hch⟩
  swap
  · exact .inr ⟨.noObject, by simp [World.step, lookup, hwr], by simp,
      by simp [Fifo.Allowed, hch]⟩
  cases hopen : ch.isOpen with
  | true =>
    obtain ⟨m, ns, wr', hrun, hm, hwr', hext⟩ := hat.append_spec h.memory hopen slice hint
    exact .inl ⟨_, _, _, _, by simp [World.step, lookup, hwr, hrun], .append slice hint hch,
      h.setWriter hch hopen hm hwr' hext (List.prefix_append _ _)⟩
  | false =>
    have hrun := hat.append_closed hopen slice hint
    by_cases hnil : slice = []
    · subst hnil
      have hset : Models { w with writers := w.writers.set c wr } chains (f.push c ch []) := by
        rw [Fifo.push, List.append_nil]
        exact h.setSame hwr hch
      exact .inl ⟨_, _, _, _, by simp [World.step, lookup, hwr, hrun], .append [] hint hch, hset⟩
    · exact .inr ⟨.check, by simp [World.step, lookup, hwr, hrun, hnil], by simp,
        by simp [Fifo.Allowed, hch, hopen]⟩

theorem step_appendBufferSlice (h : Models w chains f) (c s : ℕ) :
    StepSpec w f (.appendBufferSlice c s) := by
  rcases h.lookup_writer c with ⟨wr, ch, hwr, hch, hat⟩ | ⟨hwr, hch⟩
  swap
  · exact .inr ⟨.noObject, by simp [World.step, lookup, hwr], by simp,
      by simp [Fifo.Allowed, hch]⟩
  rcases forall₂_lookup h.slices s with ⟨sl, b, hsl, hb, hread, hbytes⟩ | ⟨hsl, hb⟩
  swap
  · exact .inr ⟨.noObject, by simp [World.step, lookup, hwr, hsl], by simp,
      fun hallowed ↦ not_lt_of_none hb hallowed.2⟩
  cases hopen : ch.isOpen with
  | true =>
    obtain ⟨m, ns, wr', hrun, hm, hwr', hext⟩ := hat.appendBufferSlice_spec h.memory hopen hread
    rw [hbytes] at hwr'
    have hset := h.setWriter hch hopen hm hwr' hext (List.prefix_append _ _)
    have hmoved : sl.movedFrom.Readable m ∧ sl.movedFrom.asSlice m = [] :=
      ⟨(hext.readable hread).movedFrom, rfl⟩
    exact .inl ⟨_, _, _, _, by simp [World.step, lookup, hwr, hsl, hrun],
      .appendBufferSlice hch hb, hset.exchange (hset.fifo.of_channels rfl fun _ ↦ .inl)
        hset.readers (forall₂_set hset.slices s hmoved)⟩
  | false =>
    have hrun := hat.appendBufferSlice_closed hopen sl
    exact .inr ⟨.check, by simp [World.step, lookup, hwr, hsl, hrun], by simp,
      by simp [Fifo.Allowed, hch, hopen]⟩

theorem step_appendReader (h : Models w chains f) (c r : ℕ) : StepSpec w f (.appendReader c r) := by
  rcases h.lookup_writer c with ⟨wr, ch, hwr, hch, hat⟩ | ⟨hwr, hch⟩
  swap
  · exact .inr ⟨.noObject, by simp [World.step, lookup, hwr], by simp,
      by simp [Fifo.Allowed, hch]⟩
  rcases h.lookup_reader r with ⟨rd, cur, hrd, hcur, hok, hchain, hstream, hreader⟩ | ⟨hrd, hcur⟩
  swap
  · exact .inr ⟨.noObject, by simp [World.step, lookup, hwr, hrd], by simp,
      fun hallowed ↦ not_lt_of_none hcur hallowed.2⟩
  have hwin : cur.window.Within (stream w.memory (nodesOf chains cur.channel)) :=
    hstream.symm ▸ hok.within
  cases hopen : ch.isOpen with
  | true =>
    have hbeside : Beside (chains c) (nodesOf chains cur.channel) (f.isOpen cur.channel) := by
      by_cases hsame : cur.channel = some c
      · rw [hsame]
        exact .inl ⟨rfl, by simp [Fifo.isOpen, hch, hopen]⟩
      · right
        rcases hc : cur.channel with _ | d
        · simp [nodesOf]
        · exact fun n hn hn' ↦ hsame (by rw [hc, h.disjoint d c n hn hn'])
    obtain ⟨m, ns, ks, wr', rd', hrun, hm, hwr', hext, hrd', hsame, hother⟩ :=
      appendReaderLoop_spec rd.size w.memory (chains c) _ wr ch rd cur h.memory hat hopen hchain
        hbeside hreader hwin (le_refl _)
    rw [hstream] at hwr' hrd'
    have hset := h.setWriter hch hopen hm hwr' hext (List.prefix_append _ _)
    -- the chain of the reader is the one that has grown, or another one
    have hks : ks = nodesOf (Function.update chains c ns) cur.channel := by
      rcases hc : cur.channel with _ | d
      · rw [hc] at hother
        exact hother (by simp [nodesOf])
      · rw [hc] at hsame hother
        by_cases hd : d = c
        · subst hd
          simpa [nodesOf] using hsame rfl
        · have := hother fun n hn hn' ↦ hd (h.disjoint d c n hn hn')
          simpa [nodesOf, Function.update_of_ne hd] using this
    rw [hks, ← f.isOpen_push hch (f.unread cur)] at hrd'
    have hfifo := (Fifo.Step.appendReader hch hcur).ok h.fifo
    exact .inl ⟨_, _, _, _, by simp [World.step, lookup, hwr, hrd, ChainBufferWriter.appendReader,
      hrun], .appendReader hch hcur,
      hset.exchange hfifo (forall₂_set hset.readers r hrd') hset.slices⟩
  | false =>
    by_cases hempty : rd.size = 0
    · have hnil : f.unread cur = [] := by
        rw [hreader.size_eq hwin, hstream] at hempty
        exact List.length_eq_zero_iff.mp hempty
      have hrun : wr.appendReader w.memory rd = .ok (wr, rd, w.memory) :=
        appendReaderLoop_empty rd.size w.memory wr hempty
      have hrd' : ReaderAt w.memory (nodesOf chains cur.channel) (f.isOpen cur.channel) rd
          (cur.take (f.bytes cur.channel) (f.unread cur).length) :=
        hreader.congr (by simp [hnil, Cursor.take, Window.skip]) rfl (Nat.zero_le _)
      have hset : Models { w with writers := w.writers.set c wr } chains
          (f.push c ch (f.unread cur)) := by
        rw [hnil, Fifo.push, List.append_nil]
        exact h.setSame hwr hch
      have hfifo := (Fifo.Step.appendReader hch hcur).ok h.fifo
      rw [← f.isOpen_push hch (f.unread cur)] at hrd'
      exact .inl ⟨_, _, _, _, by simp [World.step, lookup, hwr, hrd, hrun],
        .appendReader hch hcur,
        hset.exchange hfifo (forall₂_set hset.readers r hrd') hset.slices⟩
    · have hrun : wr.appendReader w.memory rd = .error .check := by
        obtain ⟨k, hk⟩ := Nat.exists_eq_succ_of_ne_zero hempty
        obtain ⟨res, it', hread, -⟩ :=
          hreader.readAsBufferSlice_begin h.memory hchain (le_refl rd.size)
        rw [ChainBufferWriter.appendReader, hk, ChainBufferWriter.appendReaderLoop,
          if_neg (by simp [ChainBufferReader.empty, hempty])]
        simp [ChainBufferReader.readAllAsBufferSlice, hread, hat.appendBufferSlice_closed hopen]
      exact .inr ⟨.check, by simp [World.step, lookup, hwr, hrd, hrun], by simp,
        by simp [Fifo.Allowed, hch, hopen]⟩

theorem step_extractReader (h : Models w chains f) (c : ℕ) : StepSpec w f (.extractReader c) := by
  rcases h.lookup_writer c with ⟨wr, ch, hwr, hch, hat⟩ | ⟨hwr, hch⟩
  swap
  · exact .inr ⟨.noObject, by simp [World.step, lookup, hwr], by simp,
      by simp [Fifo.Allowed, hch]⟩
  cases hhead : ch.hasHead with
  | false =>
    have hnone := hat.head
    rw [hhead] at hnone
    exact .inr ⟨.check, by simp [World.step, lookup, hwr, ChainBufferWriter.extractReader, hnone],
      by simp, by simp [Fifo.Allowed, hch, hhead]⟩
  | true =>
    have hopen := hat.head_open hhead
    obtain ⟨n, it', -, hrun, hat₀, hat', hoff, hwr'⟩ := hat.extractReader_spec h.memory hhead
    have hset := h.setWriter hch hopen h.memory hwr' .refl (List.prefix_refl _)
    have hlt := (List.getElem?_eq_some_iff.mp hch).1
    have hrd : ReaderAt w.memory (nodesOf (Function.update chains c (chains c)) (some c))
        (Fifo.isOpen { f with channels := f.channels.set c { ch with hasHead := false } } (some c))
        { begin_ := ChainBufferIterator.new w.memory n, end_ := it' }
        { channel := some c, window := { pos := 0, stop := ch.bytes.length } } := by
      simp only [nodesOf, Function.update_self, Fifo.isOpen, List.getElem?_set_self hlt,
        Option.getD_some]
      exact ⟨hat₀, hat', rfl, hoff.trans (by rw [hat.bytes]), rfl, Nat.zero_le _⟩
    have hfifo := (Fifo.Step.extractReader hch hhead).ok h.fifo
    exact .inl ⟨_, _, _, _, by simp [World.step, lookup, hwr, hrun], .extractReader hch hhead,
      hset.exchange hfifo (forall₂_concat hset.readers hrd) hset.slices⟩

theorem step_createSlice (h : Models w chains f) (bytes : List UInt8) :
    StepSpec w f (.createSlice bytes) := by
  obtain ⟨sl, m, hrun, hm, hext, hread, hbytes⟩ := BufferSlice.ofSlice_spec h.memory bytes
  have hgrow := h.grow hm hext
  exact .inl ⟨_, _, _, _, by simp [World.step, hrun], .createSlice bytes,
    hgrow.exchange (h.fifo.of_channels rfl fun _ ↦ .inl) hgrow.readers
      (forall₂_concat hgrow.slices ⟨hread, hbytes⟩)⟩

theorem step_cloneSlice (h : Models w chains f) (s : ℕ) : StepSpec w f (.cloneSlice s) := by
  rcases forall₂_lookup h.slices s with ⟨sl, b, hsl, hb, hread⟩ | ⟨hsl, hb⟩
  · exact .inl ⟨_, _, _, _, by simp [World.step, lookup, hsl], .cloneSlice hb,
      h.exchange (h.fifo.of_channels rfl fun _ ↦ .inl) h.readers (forall₂_concat h.slices hread)⟩
  · exact .inr ⟨.noObject, by simp [World.step, lookup, hsl], by simp, not_lt_of_none hb⟩

theorem step_truncateSlice (h : Models w chains f) (s limit : ℕ) :
    StepSpec w f (.truncateSlice s limit) := by
  rcases forall₂_lookup h.slices s with ⟨sl, b, hsl, hb, hread, hbytes⟩ | ⟨hsl, hb⟩
  · have htruncate : (sl.truncate limit).Readable w.memory ∧
        (sl.truncate limit).asSlice w.memory = b.take limit :=
      ⟨hread.truncate limit, by rw [hread.asSlice_truncate, hbytes]⟩
    exact .inl ⟨_, _, _, _, by simp [World.step, lookup, hsl], .truncateSlice limit hb,
      h.exchange (h.fifo.of_channels rfl fun _ ↦ .inl) h.readers
        (forall₂_set h.slices s htruncate)⟩
  · exact .inr ⟨.noObject, by simp [World.step, lookup, hsl], by simp, not_lt_of_none hb⟩

theorem step_confirmSlice (h : Models w chains f) (s size : ℕ) :
    StepSpec w f (.confirmSlice s size) := by
  rcases forall₂_lookup h.slices s with ⟨sl, b, hsl, hb, hread, hbytes⟩ | ⟨hsl, hb⟩
  swap
  · exact .inr ⟨.noObject, by simp [World.step, lookup, hsl], by simp, by simp [Fifo.Allowed, hb]⟩
  by_cases hle : sl.begin_ + size ≤ sl.end_
  · have hconfirm : ({ sl with begin_ := sl.begin_ + size } : BufferSlice).Readable w.memory ∧
        ({ sl with begin_ := sl.begin_ + size } : BufferSlice).asSlice w.memory = b.drop size :=
      ⟨hread.confirm hle, by rw [BufferSlice.asSlice_confirm, hbytes]⟩
    exact .inl ⟨_, _, _, _, by simp [World.step, lookup, hsl, BufferSlice.confirmRead, hle],
      .confirmSlice size hb, h.exchange (h.fifo.of_channels rfl fun _ ↦ .inl) h.readers
        (forall₂_set h.slices s hconfirm)⟩
  · refine .inr ⟨.check, by simp [World.step, lookup, hsl, BufferSlice.confirmRead, hle], by simp,
      ?_⟩
    have hsize := hread.length_asSlice
    have := hread.begin_add_size_le
    rintro ⟨b', hb', hsize'⟩
    cases hb.symm.trans hb'
    rw [hbytes] at hsize
    omega

theorem step_syncWithWriter (h : Models w chains f) (r : ℕ) : StepSpec w f (.syncWithWriter r) := by
  rcases h.lookup_reader r with ⟨rd, cur, hrd, hcur, hok, hchain, hstream, hreader⟩ | ⟨hrd, hcur⟩
  swap
  · exact .inr ⟨.noObject, by simp [World.step, lookup, hrd], by simp, not_lt_of_none hcur⟩
  obtain ⟨rd', hrun, hrd'⟩ := hreader.syncWithWriter_spec h.memory hchain
  rw [hstream] at hrd'
  have hstep := Fifo.Step.syncWithWriter hcur
  generalize hcur' : (if cur.sync then
    { cur with window := cur.window.extend (f.bytes cur.channel) } else cur) = cur' at hrd' hstep
  have hchannel : cur'.channel = cur.channel := by
    rw [← hcur']
    split <;> rfl
  rw [← hchannel] at hrd'
  exact .inl ⟨_, _, _, _, by simp [World.step, lookup, hrd, hrun], hstep,
    h.exchange (hstep.ok h.fifo) (forall₂_set h.readers r hrd') h.slices⟩

theorem step_size (h : Models w chains f) (r : ℕ) : StepSpec w f (.size r) := by
  rcases h.lookup_reader r with ⟨rd, cur, hrd, hcur, hok, hchain, hstream, hreader⟩ | ⟨hrd, hcur⟩
  swap
  · exact .inr ⟨.noObject, by simp [World.step, lookup, hrd], by simp, not_lt_of_none hcur⟩
  have hsize := hreader.size_eq (hstream.symm ▸ hok.within)
  rw [hstream] at hsize
  exact .inl ⟨.size (f.unread cur).length, w, f, chains, by
    simp [World.step, lookup, hrd, hsize, Fifo.unread], .size hcur, h⟩

theorem step_prepareRead (h : Models w chains f) (r : ℕ) : StepSpec w f (.prepareRead r) := by
  rcases h.lookup_reader r with ⟨rd, cur, hrd, hcur, hok, hchain, hstream, hreader⟩ | ⟨hrd, hcur⟩
  swap
  · exact .inr ⟨.noObject, by simp [World.step, lookup, hrd], by simp, not_lt_of_none hcur⟩
  obtain ⟨b, rd', hrun, hshown, hnonempty, hrd'⟩ := hreader.prepareRead_spec h.memory hchain
  rw [hstream] at hshown hnonempty
  have hstep := Fifo.Step.prepareRead hcur hshown hnonempty
  exact .inl ⟨_, _, _, _, by simp [World.step, lookup, hrd, hrun], hstep,
    h.exchange (hstep.ok h.fifo) (forall₂_set h.readers r hrd') h.slices⟩

theorem step_confirmRead (h : Models w chains f) (r size : ℕ) :
    StepSpec w f (.confirmRead r size) := by
  rcases h.lookup_reader r with ⟨rd, cur, hrd, hcur, hok, hchain, hstream, hreader⟩ | ⟨hrd, hcur⟩
  swap
  · exact .inr ⟨.noObject, by simp [World.step, lookup, hrd], by simp, by
      simp [Fifo.Allowed, hcur]⟩
  have hready := hok.ready_le
  rcases hreader.confirmRead_spec h.memory hchain (hstream.symm ▸ hok.within)
    (by rw [hstream]; exact hready) size with ⟨hle, rd', hrun, hrd'⟩ | ⟨hrun, hlt⟩
  · rw [hstream] at hle hrd'
    have hstep := Fifo.Step.confirmRead hcur hle
    exact .inl ⟨_, _, _, _, by simp [World.step, lookup, hrd, hrun], hstep,
      h.exchange (hstep.ok h.fifo) (forall₂_set h.readers r hrd') h.slices⟩
  · refine .inr ⟨.check, by simp [World.step, lookup, hrd, hrun], by simp, ?_⟩
    rintro ⟨cur', hcur', hsize⟩
    cases hcur.symm.trans hcur'
    omega

theorem step_advance (h : Models w chains f) (r offset dest : ℕ) :
    StepSpec w f (.advance r offset dest) := by
  rcases h.lookup_reader r with ⟨rd, cur, hrd, hcur, hok, hchain, hstream, hreader⟩ | ⟨hrd, hcur⟩
  swap
  · exact .inr ⟨.noObject, by simp [World.step, lookup, hrd], by simp, by
      simp [Fifo.Allowed, hcur]⟩
  rcases hreader.advance_spec h.memory hchain (hstream.symm ▸ hok.within) offset dest with
    ⟨hle, rd', hrun, hrd'⟩ | ⟨hrun, hlt⟩
  · rw [hstream] at hle hrd' hrun
    have hstep := Fifo.Step.advance dest hcur hle
    exact .inl ⟨_, _, _, _, by simp [World.step, lookup, hrd, hrun]; rfl, hstep,
      h.exchange (hstep.ok h.fifo) (forall₂_set h.readers r hrd') h.slices⟩
  · refine .inr ⟨.check, by simp [World.step, lookup, hrd, hrun], by simp, ?_⟩
    rintro ⟨cur', hcur', hle⟩
    cases hcur.symm.trans hcur'
    rw [hstream] at hlt
    exact absurd hle (Nat.not_le.mpr hlt)

theorem step_cutHead (h : Models w chains f) (r offset : ℕ) : StepSpec w f (.cutHead r offset) := by
  rcases h.lookup_reader r with ⟨rd, cur, hrd, hcur, hok, hchain, hstream, hreader⟩ | ⟨hrd, hcur⟩
  swap
  · exact .inr ⟨.noObject, by simp [World.step, lookup, hrd], by simp, by
      simp [Fifo.Allowed, hcur]⟩
  rcases hreader.cutHead_spec h.memory hchain (hstream.symm ▸ hok.within) offset with
    ⟨hle, hd, rd', hrun, hhd, hrd'⟩ | ⟨hrun, hlt⟩
  · rw [hstream] at hle
    have hstep := Fifo.Step.cutHead hcur hle
    exact .inl ⟨_, _, _, _, by simp [World.step, lookup, hrd, hrun], hstep,
      h.exchange (hstep.ok h.fifo) (forall₂_concat (forall₂_set h.readers r hrd') hhd) h.slices⟩
  · refine .inr ⟨.check, by simp [World.step, lookup, hrd, hrun], by simp, ?_⟩
    rintro ⟨cur', hcur', hle⟩
    cases hcur.symm.trans hcur'
    rw [hstream] at hlt
    exact absurd hle (Nat.not_le.mpr hlt)

theorem step_readAsBufferSlice (h : Models w chains f) (r limit : ℕ) :
    StepSpec w f (.readAsBufferSlice r limit) := by
  rcases h.lookup_reader r with ⟨rd, cur, hrd, hcur, hok, hchain, hstream, hreader⟩ | ⟨hrd, hcur⟩
  swap
  · exact .inr ⟨.noObject, by simp [World.step, lookup, hrd], by simp, not_lt_of_none hcur⟩
  obtain ⟨res, rd', hrun, hres, hshown, hnonempty, hrd'⟩ :=
    hreader.readAsBufferSlice_spec h.memory hchain (hstream.symm ▸ hok.within) limit
  rw [hstream] at hshown hnonempty hrd'
  have hstep := Fifo.Step.readAsBufferSlice hcur hshown hnonempty
  exact .inl ⟨_, _, _, _, by simp [World.step, lookup, hrd, hrun], hstep,
    h.exchange (hstep.ok h.fifo) (forall₂_set h.readers r hrd')
      (forall₂_concat h.slices ⟨hres, rfl⟩)⟩

theorem step_clone (h : Models w chains f) (r : ℕ) : StepSpec w f (.clone r) := by
  rcases h.lookup_reader r with ⟨rd, cur, hrd, hcur, hok, hchain, hstream, hreader⟩ | ⟨hrd, hcur⟩
  swap
  · exact .inr ⟨.noObject, by simp [World.step, lookup, hrd], by simp, not_lt_of_none hcur⟩
  have hrd' : ReaderAt w.memory (nodesOf chains cur.channel) (f.isOpen cur.channel) rd
      (cur.startAt cur.window) := hreader.congr rfl rfl (Nat.zero_le _)
  have hstep := Fifo.Step.clone hcur
  exact .inl ⟨_, _, _, _, by simp [World.step, lookup, hrd], hstep,
    h.exchange (hstep.ok h.fifo) (forall₂_concat h.readers hrd') h.slices⟩

theorem step_moveAsBufferSlice (h : Models w chains f) (r : ℕ) :
    StepSpec w f (.moveAsBufferSlice r) := by
  rcases h.lookup_reader r with ⟨rd, cur, hrd, hcur, hok, hchain, hstream, hreader⟩ | ⟨hrd, hcur⟩
  swap
  · exact .inr ⟨.noObject, by simp [World.step, lookup, hrd], by simp, not_lt_of_none hcur⟩
  obtain ⟨res, m, hrun, hm, hext, hres, hbytes⟩ :=
    hreader.moveAsBufferSlice_spec h.memory hchain (hstream.symm ▸ hok.within)
  rw [hstream] at hbytes
  have hgrow := h.grow hm hext
  have hstep := Fifo.Step.moveAsBufferSlice hcur
  exact .inl ⟨_, _, _, _, by simp [World.step, lookup, hrd, hrun, hbytes, Fifo.unread], hstep,
    hgrow.exchange (hstep.ok h.fifo) (forall₂_set hgrow.readers r (.default m))
      (forall₂_concat hgrow.slices ⟨hres, hbytes⟩)⟩

/-- Every operation does what it does to queues, or was not allowed. -/
theorem step_spec (h : Models w chains f) (op : Op) : StepSpec w f op := by
  cases op with
  | createWriter => exact step_createWriter h
  | destroyWriter c => exact step_destroyWriter h c
  | append c slice hint => exact step_append h c slice hint
  | appendBufferSlice c s => exact step_appendBufferSlice h c s
  | appendReader c r => exact step_appendReader h c r
  | extractReader c => exact step_extractReader h c
  | createSlice bytes => exact step_createSlice h bytes
  | cloneSlice s => exact step_cloneSlice h s
  | truncateSlice s limit => exact step_truncateSlice h s limit
  | confirmSlice s size => exact step_confirmSlice h s size
  | syncWithWriter r => exact step_syncWithWriter h r
  | size r => exact step_size h r
  | prepareRead r => exact step_prepareRead h r
  | confirmRead r size => exact step_confirmRead h r size
  | advance r offset dest => exact step_advance h r offset dest
  | cutHead r offset => exact step_cutHead h r offset
  | readAsBufferSlice r limit => exact step_readAsBufferSlice h r limit
  | clone r => exact step_clone h r
  | moveAsBufferSlice r => exact step_moveAsBufferSlice h r

end Steps

/-! ## Runs -/

/-- Chains of buffers simulate byte queues. -/
theorem simulates : Simulates World.step Fifo.Step Fifo.Allowed (· ≠ Fault.fuel)
    (fun w f ↦ ∃ chains, Models w chains f) where
  ok := by
    rintro w f op out w' ⟨chains, h⟩ hrun
    rcases step_spec h op with ⟨out', w'', f', chains', hstep, hspec, h'⟩ | ⟨e, hstep, -⟩
    · cases hrun.symm.trans hstep
      exact ⟨f', hspec, chains', h'⟩
    · cases hrun.symm.trans hstep
  error := by
    rintro w f op e ⟨chains, h⟩ hrun
    rcases step_spec h op with ⟨out', w'', f', chains', hstep, -⟩ | ⟨e', hstep, hfuel, hallowed⟩
    · cases hrun.symm.trans hstep
    · cases hrun.symm.trans hstep
      exact ⟨hfuel, hallowed⟩

/-- Every program behaves as with byte queues, until it does something that is not allowed.  In the
queues, what each reader got and what it can still read are the bytes of its channel from where it
began up to where the channel ended when the reader was synchronized last; and what `cut_head` would
give, the head and the rest, are together what the reader can still read. -/
theorem run_fifo (ops : List Op) :
    (∃ outs w f, runProgram World.step ops {} = .ok (outs, w) ∧
      Runs Fifo.Step {} (ops.zip outs) f ∧
      ∀ cur ∈ f.readers,
        cur.got ++ f.unread cur =
          ((f.bytes cur.channel).take cur.window.stop).drop cur.start ∧
        ∀ offset ≤ (f.unread cur).length,
          (cur.window.first offset).read (f.bytes cur.channel) ++
            (cur.window.skip offset).read (f.bytes cur.channel) = f.unread cur) ∨
    (∃ e done op rest outs f, runProgram World.step ops {} = .error e ∧ e ≠ .fuel ∧
      ops = done ++ op :: rest ∧ Runs Fifo.Step {} (done.zip outs) f ∧ ¬f.Allowed op) := by
  rcases simulates.run ops ⟨_, Models.init⟩ with ⟨outs, w, f, hrun, hruns, -⟩ |
    ⟨e, done, op, rest, outs, f, hrun, hfuel, hops, hruns, hallowed⟩
  · refine .inl ⟨outs, w, f, hrun, hruns, fun cur hcur ↦ ?_⟩
    have hok := Fifo.ok_of_runs hruns (by simp [Fifo.Ok]) cur hcur
    exact ⟨hok.got_append_unread, fun offset hle ↦ hok.within.read_first_append_skip hle⟩
  · exact .inr ⟨e, done, op, rest, outs, f, hrun, hfuel, hops, hruns, hallowed⟩

end PxcCore.Buffer
