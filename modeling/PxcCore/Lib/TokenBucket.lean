import Mathlib

/-!
# Token buckets

A bucket is refilled at a constant speed up to its capacity, and every event takes one token out of
it.  What is in the bucket over the time is below a line, whose height at time zero is enough to
know about it.  A bucket that is never overdrawn bounds the number of events in every window.
-/

namespace PxcCore.Lib.TokenBucket

section Definitions

variable {K : Type*} [Field K] [LinearOrder K]

/-- The events from a time on. -/
def since (history : List K) (s : K) : ℕ := history.countP (s ≤ ·)

/-- The events of a window. -/
def inWindow (history : List K) (s length : K) : ℕ :=
  history.countP fun t ↦ s ≤ t ∧ t ≤ s + length

/-- What is left: the events from any time on have taken their tokens out of a bucket that was at
most full then.  The bucket at the time `t` holds `level + t * speed`. -/
def Taken (capacity speed : K) (history : List K) (level : K) : Prop :=
  ∀ s, 0 < since history s → level ≤ capacity - since history s - s * speed

/-- No window has more events than a full bucket and what is filled in meanwhile. -/
def Bounded (capacity speed : K) (history : List K) : Prop :=
  ∀ s length, 0 ≤ length → (inWindow history s length : K) ≤ capacity + 1 + length * speed

end Definitions

/-! ## Events -/

section Events

variable {K : Type*} [LinearOrder K]

theorem since_append (history : List K) (now s : K) :
    since (history ++ [now]) s = since history s + if s ≤ now then 1 else 0 := by
  rw [since, List.countP_append, List.countP_singleton, since]
  simp only [decide_eq_true_eq]

variable [Field K]

theorem inWindow_append (history : List K) (now s length : K) :
    inWindow (history ++ [now]) s length =
      inWindow history s length + if s ≤ now ∧ now ≤ s + length then 1 else 0 := by
  rw [inWindow, List.countP_append, List.countP_singleton, inWindow]
  simp only [decide_eq_true_eq]

theorem inWindow_le_since (history : List K) (s length : K) :
    inWindow history s length ≤ since history s :=
  List.countP_mono_left fun t _ h ↦ by
    simp only [decide_eq_true_eq] at h ⊢
    exact h.1

end Events

/-! ## Buckets -/

section Buckets

variable {K : Type*} [Field K] [LinearOrder K] {capacity speed level now s length : K}
variable {history : List K}

namespace Taken

theorem nil : Taken capacity speed [] level := fun _ h ↦ absurd h (by simp [since])

/-- Less is left if the bucket overflows. -/
theorem mono {level' : K} (h : Taken capacity speed history level) (hle : level' ≤ level) :
    Taken capacity speed history level' := fun s hs ↦ hle.trans (h s hs)

variable [IsStrictOrderedRing K]

/-- The last event takes a token out of a bucket that is at most full. -/
theorem append (h : Taken capacity speed history level)
    (hfull : level + now * speed ≤ capacity) (hspeed : 0 ≤ speed)
    (hlatest : ∀ t ∈ history, t ≤ now) :
    Taken capacity speed (history ++ [now]) (level - 1) := by
  intro s hs
  rw [since_append] at hs ⊢
  by_cases hnow : s ≤ now
  · rw [if_pos hnow] at hs ⊢
    push_cast
    rcases Nat.eq_zero_or_pos (since history s) with hzero | hpos
    · have hmul := mul_le_mul_of_nonneg_right hnow hspeed
      rw [hzero, Nat.cast_zero]
      linarith
    · linarith [h s hpos]
  · have hzero : since history s = 0 := by
      rw [since, List.countP_eq_zero]
      intro t ht
      simpa using (hlatest t ht).trans_lt (not_le.mp hnow)
    rw [if_neg hnow, hzero] at hs
    exact absurd hs (by decide)

/-- A bucket that is not overdrawn has room for the events and one more. -/
theorem since_le (h : Taken capacity speed history level) (hcapacity : 0 ≤ capacity)
    (hspeed : 0 ≤ speed) (hlevel : 0 ≤ level + now * speed) (hnow : s ≤ now) :
    (since history s : K) ≤ capacity + (now - s) * speed := by
  rcases Nat.eq_zero_or_pos (since history s) with hzero | hpos
  · rw [hzero, Nat.cast_zero]
    exact add_nonneg hcapacity (mul_nonneg (sub_nonneg.mpr hnow) hspeed)
  · have hline := h s hpos
    rw [sub_mul]
    linarith

end Taken

namespace Bounded

variable [IsStrictOrderedRing K]

theorem nil (hcapacity : 0 ≤ capacity) (hspeed : 0 ≤ speed) : Bounded capacity speed [] := by
  intro s length hlength
  have hmul := mul_nonneg hlength hspeed
  rw [inWindow, List.countP_nil, Nat.cast_zero]
  linarith

/-- Another event, if the bucket is not overdrawn. -/
theorem append (h : Bounded capacity speed history) (htaken : Taken capacity speed history level)
    (hcapacity : 0 ≤ capacity) (hspeed : 0 ≤ speed) (hlevel : 0 ≤ level + now * speed) :
    Bounded capacity speed (history ++ [now]) := by
  intro s length hlength
  rw [inWindow_append]
  split_ifs with hin
  · have hsince := htaken.since_le hcapacity hspeed hlevel hin.1
    have hwindow : (inWindow history s length : K) ≤ since history s := by
      exact_mod_cast inWindow_le_since history s length
    have hmul := mul_le_mul_of_nonneg_right (sub_le_iff_le_add'.mpr hin.2) hspeed
    push_cast
    linarith
  · exact h s length hlength

end Bounded

end Buckets

end PxcCore.Lib.TokenBucket
