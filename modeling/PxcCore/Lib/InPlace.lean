import PxcCore.Lib.Memory

/-!
# Transducers that write over their input

A transducer reads a string from its front and never writes more bytes than it has read.  Its output
can therefore be put over its input: what is still to be read is never overwritten.
-/

namespace PxcCore.Lib

universe u

/-- What a transducer does with the bytes it has not read yet. -/
inductive Move (ε : Type u) where
  /-- It is done. -/
  | stop (result : ε)
  /-- It reads `k` bytes and writes `out`. -/
  | next (k : ℕ) (out : List UInt8)

/-- A step function that reads something with every step and never writes more than it reads. -/
structure Transducer (ε : Type u) where
  step : List UInt8 → Move ε
  pos_of_next : ∀ {l k out}, step l = .next k out → 0 < k
  le_of_next : ∀ {l k out}, step l = .next k out → k ≤ l.length
  length_of_next : ∀ {l k out}, step l = .next k out → out.length ≤ k

/-- What was written, what was not read, and the result. -/
structure Output (ε : Type u) where
  out : List UInt8
  rest : List UInt8
  result : ε

/-- The positions where a transducer in memory reads and writes next. -/
structure Cursor where
  memory : Memory
  src : ℕ
  dest : ℕ

/-- The bytes before `stop` that are still to be read. -/
def Cursor.unread (c : Cursor) (stop : ℕ) : List UInt8 := readBytes c.memory c.src (stop - c.src)

/-- Reads `k` bytes and writes `out`. -/
def Cursor.move (c : Cursor) (k : ℕ) (out : List UInt8) : Cursor where
  memory := writeBytes c.memory c.dest out
  src := c.src + k
  dest := c.dest + out.length

/-- The output cannot reach the input that is still to be read: it starts not behind it, or behind
all of it. -/
def Cursor.Apart (stop : ℕ) (c : Cursor) : Prop := c.dest ≤ c.src ∨ stop ≤ c.dest

namespace Transducer

variable {ε : Type u} (t : Transducer ε)

/-- The whole run on a string that nothing is written over. -/
def run (l : List UInt8) : Output ε :=
  match _h : t.step l with
  | .stop result => ⟨[], l, result⟩
  | .next k out =>
    let output := run (l.drop k)
    { output with out := out ++ output.out }
termination_by l.length
decreasing_by
  have hpos := t.pos_of_next _h
  have hle := t.le_of_next _h
  rw [List.length_drop]
  omega

/-- The whole run in memory, up to the address `stop`. -/
def loop (stop : ℕ) (c : Cursor) : Cursor × ε :=
  match _h : t.step (c.unread stop) with
  | .stop result => (c, result)
  | .next k out => loop stop (c.move k out)
termination_by stop - c.src
decreasing_by
  have hpos := t.pos_of_next _h
  have hle := t.le_of_next _h
  rw [Cursor.unread, length_readBytes] at hle
  change stop - (c.src + k) < stop - c.src
  omega

/-- One step in memory. -/
inductive Step (stop : ℕ) (c : Cursor) : Cursor → Prop where
  | next {k : ℕ} {out : List UInt8} (h : t.step (c.unread stop) = .next k out) :
    Step stop c (c.move k out)

/-- The states that a run in memory goes through. -/
def Reaches (stop : ℕ) : Cursor → Cursor → Prop := Relation.ReflTransGen (t.Step stop)

/-! ## Runs on strings -/

variable {t} {l : List UInt8} {k : ℕ} {out : List UInt8} {result : ε}

theorem run_of_stop (h : t.step l = .stop result) : t.run l = ⟨[], l, result⟩ := by
  rw [run]
  split
  · next h' =>
    rw [h] at h'
    cases h'
    rfl
  · next h' =>
    rw [h] at h'
    cases h'

theorem run_of_next (h : t.step l = .next k out) :
    t.run l = { t.run (l.drop k) with out := out ++ (t.run (l.drop k)).out } := by
  rw [run]
  split
  · next h' =>
    rw [h] at h'
    cases h'
  · next h' =>
    rw [h] at h'
    cases h'
    rfl

/-! ## Runs in memory -/

variable {stop : ℕ} {c d : Cursor}

theorem loop_of_stop (h : t.step (c.unread stop) = .stop result) : t.loop stop c = (c, result) := by
  rw [loop]
  split
  · next h' =>
    rw [h] at h'
    cases h'
    rfl
  · next h' =>
    rw [h] at h'
    cases h'

theorem loop_of_next (h : t.step (c.unread stop) = .next k out) :
    t.loop stop c = t.loop stop (c.move k out) := by
  rw [loop]
  split
  · next h' =>
    rw [h] at h'
    cases h'
  · next h' =>
    rw [h] at h'
    cases h'
    rfl

/-- What a run in memory has done between two of its states: it has written what the run on the
string writes, no more than it has read, and nothing else. -/
structure Between (t : Transducer ε) (stop : ℕ) (c d : Cursor) : Prop where
  src_le : c.src ≤ d.src
  dest_le : c.dest ≤ d.dest
  written_le : d.dest - c.dest ≤ d.src - c.src
  outside : ∀ x, x < c.dest ∨ d.dest ≤ x → d.memory x = c.memory x
  unread_eq : d.unread stop = (c.unread stop).drop (d.src - c.src)
  run_eq : t.run (c.unread stop) = { t.run (d.unread stop) with
    out := readBytes d.memory c.dest (d.dest - c.dest) ++ (t.run (d.unread stop)).out }

theorem Between.refl (t : Transducer ε) (stop : ℕ) (c : Cursor) : t.Between stop c c where
  src_le := le_rfl
  dest_le := le_rfl
  written_le := by rw [Nat.sub_self, Nat.sub_self]
  outside _ _ := rfl
  unread_eq := by rw [Nat.sub_self, List.drop_zero]
  run_eq := by rw [Nat.sub_self, readBytes, List.nil_append]

theorem Between.trans {e : Cursor} (h : t.Between stop c d) (h' : t.Between stop d e) :
    t.Between stop c e where
  src_le := h.src_le.trans h'.src_le
  dest_le := h.dest_le.trans h'.dest_le
  written_le := by
    have := h.written_le
    have := h'.written_le
    have := h.dest_le
    have := h.src_le
    have := h'.src_le
    omega
  outside x hx := by
    have hd := h.dest_le
    have he := h'.dest_le
    rw [h'.outside x (by omega), h.outside x (by omega)]
  unread_eq := by
    have hd := h.src_le
    have he := h'.src_le
    rw [h'.unread_eq, h.unread_eq, List.drop_drop]
    congr 1
    omega
  run_eq := by
    have hd := h.dest_le
    have he := h'.dest_le
    have hsplit : e.dest - c.dest = (d.dest - c.dest) + (e.dest - d.dest) := by omega
    have hfirst : readBytes e.memory c.dest (d.dest - c.dest) =
        readBytes d.memory c.dest (d.dest - c.dest) :=
      readBytes_congr fun x _ hx ↦ h'.outside x (by omega)
    have hplace : c.dest + (d.dest - c.dest) = d.dest := by omega
    rw [h.run_eq, h'.run_eq, hsplit, readBytes_add, hfirst, hplace, List.append_assoc]

theorem Between.apart (h : t.Between stop c d) (hc : c.Apart stop) : d.Apart stop := by
  have hsrc := h.src_le
  have hdest := h.dest_le
  have hwritten := h.written_le
  rcases hc with hle | hstop
  · left
    omega
  · right
    omega

/-- One step, which writes behind what it has read. -/
theorem Step.between (hc : c.Apart stop) (h : t.Step stop c d) : t.Between stop c d := by
  obtain ⟨hstep⟩ := h
  rename_i k out
  have hle := t.le_of_next hstep
  have hout := t.length_of_next hstep
  have hunread : (c.move k out).unread stop = (c.unread stop).drop k := by
    rw [Cursor.unread, length_readBytes] at hle
    rw [Cursor.unread, Cursor.unread, drop_readBytes _ _ hle, Nat.sub_sub]
    apply readBytes_writeBytes_of_disjoint
    change c.dest + out.length ≤ c.src + k ∨ c.src + k + (stop - (c.src + k)) ≤ c.dest
    rcases hc with hsrc | hstop
    · left
      omega
    · by_cases hk : k = 0
      · exact absurd (t.pos_of_next hstep) (by omega)
      · right
        omega
  constructor
  · exact Nat.le_add_right _ _
  · exact Nat.le_add_right _ _
  · change c.dest + out.length - c.dest ≤ c.src + k - c.src
    omega
  · intro x hx
    exact writeBytes_of_outside hx
  · rw [hunread]
    change _ = (c.unread stop).drop (c.src + k - c.src)
    rw [Nat.add_sub_cancel_left]
  · have hwritten :
        readBytes (c.move k out).memory c.dest ((c.move k out).dest - c.dest) = out := by
      change readBytes (writeBytes c.memory c.dest out) c.dest (c.dest + out.length - c.dest) = out
      rw [Nat.add_sub_cancel_left, readBytes_writeBytes]
    rw [run_of_next hstep, hunread, hwritten]

/-- What a run has done at any moment. -/
theorem Reaches.between (hc : c.Apart stop) (h : t.Reaches stop c d) : t.Between stop c d := by
  induction h with
  | refl => exact .refl t stop c
  | tail _ hstep ih => exact ih.trans (hstep.between (ih.apart hc))

/-- Nothing is read from `stop` on. -/
theorem Reaches.src_le (hc : c.src ≤ stop) (h : t.Reaches stop c d) : d.src ≤ stop := by
  induction h with
  | refl => exact hc
  | tail _ hstep ih =>
    obtain ⟨hstep⟩ := hstep
    have hle := t.le_of_next hstep
    rw [Cursor.unread, length_readBytes] at hle
    exact Nat.add_le_of_le_sub' ih hle

/-- Over its own input, a run has never written more than it has read. -/
theorem Reaches.dest_le_src (hc : c.dest ≤ c.src) (h : t.Reaches stop c d) : d.dest ≤ d.src := by
  have hbetween := h.between (.inl hc)
  have hwritten := hbetween.written_le
  have hsrc := hbetween.src_le
  have hdest := hbetween.dest_le
  omega

/-- The run in memory goes on until it stops. -/
theorem reaches_loop (t : Transducer ε) (stop : ℕ) (c : Cursor) :
    t.Reaches stop c (t.loop stop c).1 ∧
      t.step ((t.loop stop c).1.unread stop) = .stop (t.loop stop c).2 := by
  induction c using loop.induct t stop with
  | case1 c result h =>
    rw [loop_of_stop h]
    exact ⟨.refl, h⟩
  | case2 c k out h ih =>
    rw [loop_of_next h]
    exact ⟨.head (.next h) ih.1, ih.2⟩

/-- A run over its own input, or into a place behind it, is the run on the string. -/
theorem run_unread (t : Transducer ε) {stop : ℕ} {c : Cursor} (hc : c.Apart stop) :
    t.run (c.unread stop) =
    ⟨readBytes (t.loop stop c).1.memory c.dest ((t.loop stop c).1.dest - c.dest),
      (t.loop stop c).1.unread stop, (t.loop stop c).2⟩ := by
  obtain ⟨hreach, hstop⟩ := reaches_loop t stop c
  rw [(hreach.between hc).run_eq, run_of_stop hstop, List.append_nil]

end Transducer

end PxcCore.Lib
