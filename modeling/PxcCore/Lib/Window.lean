import Mathlib

/-!
# Windows of a growing list

A window is a piece of a list that is only ever appended to.  It is read from its front, and its end
may be moved forward to the end of the list.
-/

namespace PxcCore.Lib

universe u

/-- The places of a list from `pos` up to `stop`. -/
structure Window where
  pos : ℕ := 0
  stop : ℕ := 0
deriving DecidableEq, Repr

namespace Window

variable {α : Type u}

/-- What a window shows of a list. -/
def read (w : Window) (l : List α) : List α := (l.take w.stop).drop w.pos

/-- The window behind its first `k` places. -/
def skip (w : Window) (k : ℕ) : Window := { w with pos := w.pos + k }

/-- The first `k` places of a window. -/
def first (w : Window) (k : ℕ) : Window := { w with stop := w.pos + k }

/-- The window that ends where the list ends. -/
def extend (w : Window) (l : List α) : Window := { w with stop := l.length }

/-- A window that lies within a list. -/
structure Within (w : Window) (l : List α) : Prop where
  pos_le : w.pos ≤ w.stop
  stop_le : w.stop ≤ l.length

theorem read_eq_take_drop (w : Window) (l : List α) :
    w.read l = (l.drop w.pos).take (w.stop - w.pos) := by
  rw [read, List.drop_take]

@[simp] theorem read_nil (w : Window) : w.read ([] : List α) = [] := by simp [read]

@[simp] theorem read_skip (w : Window) (k : ℕ) (l : List α) :
    (w.skip k).read l = (w.read l).drop k := by
  simp [read, skip]

theorem read_extend_eq_drop (w : Window) (l : List α) : (w.extend l).read l = l.drop w.pos := by
  simp [read, extend]

namespace Within

variable {w : Window} {l : List α}

theorem length_read (h : w.Within l) : (w.read l).length = w.stop - w.pos := by
  have := h.stop_le
  rw [read, List.length_drop, List.length_take, Nat.min_eq_left this]

/-- What is appended to the list is not seen. -/
theorem read_append (h : w.Within l) (x : List α) : w.read (l ++ x) = w.read l := by
  rw [read, List.take_append_of_le_length h.stop_le, read]

theorem append (h : w.Within l) (x : List α) : w.Within (l ++ x) :=
  ⟨h.pos_le, h.stop_le.trans (by simp)⟩

theorem skip (h : w.Within l) {k : ℕ} (hk : k ≤ (w.read l).length) : (w.skip k).Within l := by
  rw [h.length_read] at hk
  have := h.pos_le
  exact ⟨show w.pos + k ≤ w.stop by omega, h.stop_le⟩

theorem first (h : w.Within l) {k : ℕ} (hk : k ≤ (w.read l).length) : (w.first k).Within l := by
  rw [h.length_read] at hk
  have := h.pos_le
  have := h.stop_le
  exact ⟨Nat.le_add_right _ _, show w.pos + k ≤ l.length by omega⟩

theorem read_first (h : w.Within l) {k : ℕ} (hk : k ≤ (w.read l).length) :
    (w.first k).read l = (w.read l).take k := by
  rw [h.length_read] at hk
  have := h.pos_le
  have hle : w.pos + k ≤ w.stop := by omega
  simp [read, Window.first, List.take_drop, List.take_take, hle]

/-- A window is its first places and the rest. -/
theorem read_first_append_skip (h : w.Within l) {k : ℕ} (hk : k ≤ (w.read l).length) :
    (w.first k).read l ++ (w.skip k).read l = w.read l := by
  rw [h.read_first hk, read_skip, List.take_append_drop]

theorem extend (h : w.Within l) : (w.extend l).Within l :=
  ⟨h.pos_le.trans h.stop_le, le_refl _⟩

/-- A window that is extended shows what it has shown, and behind it what is new. -/
theorem read_extend (h : w.Within l) : (w.extend l).read l = w.read l ++ l.drop w.stop := by
  have hle : w.pos ≤ (l.take w.stop).length := by
    rw [List.length_take]
    exact Nat.le_min.mpr ⟨h.pos_le, h.pos_le.trans h.stop_le⟩
  calc (w.extend l).read l = l.drop w.pos := w.read_extend_eq_drop l
    _ = (l.take w.stop ++ l.drop w.stop).drop w.pos := by rw [List.take_append_drop]
    _ = w.read l ++ l.drop w.stop := List.drop_append_of_le_length hle

end Within

end Window

end PxcCore.Lib
