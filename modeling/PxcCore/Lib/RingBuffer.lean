import Mathlib

/-!
# Ring buffers

The elements of a queue in the slots of a buffer: the one at position `i` is in slot `i % n`.
-/

namespace PxcCore.Lib

universe u

variable {α : Type u} {n i j k : ℕ} {buf buf' : ℕ → α} {a : α}

/-- The elements at the `k` positions from `i` on. -/
def ringSlice (n : ℕ) (buf : ℕ → α) (i k : ℕ) : List α := (List.range' i k).map fun j ↦ buf (j % n)

@[simp] theorem ringSlice_zero : ringSlice n buf i 0 = [] := rfl

@[simp] theorem length_ringSlice : (ringSlice n buf i k).length = k := by simp [ringSlice]

theorem ringSlice_add (n : ℕ) (buf : ℕ → α) (i j k : ℕ) :
    ringSlice n buf i (j + k) = ringSlice n buf i j ++ ringSlice n buf (i + j) k := by
  simp [ringSlice, ← List.range'_append_1]

theorem ringSlice_cons (n : ℕ) (buf : ℕ → α) (i k : ℕ) :
    ringSlice n buf i (k + 1) = buf (i % n) :: ringSlice n buf (i + 1) k := rfl

theorem ringSlice_succ (n : ℕ) (buf : ℕ → α) (i k : ℕ) :
    ringSlice n buf i (k + 1) = ringSlice n buf i k ++ [buf ((i + k) % n)] :=
  ringSlice_add n buf i k 1

theorem ringSlice_congr (h : ∀ j, i ≤ j → j < i + k → buf (j % n) = buf' (j % n)) :
    ringSlice n buf i k = ringSlice n buf' i k := by
  apply List.map_congr_left
  intro j hj
  obtain ⟨hle, hlt⟩ := List.mem_range'_1.mp hj
  exact h j hle hlt

/-- Positions that are less than `n` apart have slots of their own. -/
theorem mod_ne_mod (hlt : i < j) (hlt' : j < i + n) : i % n ≠ j % n := by
  intro heq
  have hdvd : n ∣ j - i := (Nat.modEq_iff_dvd' hlt.le).mp heq
  have hle := Nat.le_of_dvd (by omega) hdvd
  omega

/-- What is written at a free position is not seen. -/
theorem update_of_free {l : ℕ} (hle : i ≤ j) (hlt : j < l) (hfree : l < i + n) :
    Function.update buf (l % n) a (j % n) = buf (j % n) :=
  Function.update_of_ne (mod_ne_mod hlt (by omega)) ..

theorem ringSlice_update {l : ℕ} (hle : i + k ≤ l) (hfree : l < i + n) :
    ringSlice n (Function.update buf (l % n) a) i k = ringSlice n buf i k :=
  ringSlice_congr fun _ hj hlt ↦ update_of_free hj (by omega) hfree

/-- What is written behind the last position is the new last element. -/
theorem ringSlice_update_succ (hlt : k < n) :
    ringSlice n (Function.update buf ((i + k) % n) a) i (k + 1) = ringSlice n buf i k ++ [a] := by
  rw [ringSlice_succ, ringSlice_update le_rfl (by omega), Function.update_self]

end PxcCore.Lib
