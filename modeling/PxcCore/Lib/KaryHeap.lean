import Mathlib

/-!
# Heap order in a K-ary tree

The first `n` values of a sequence are the nodes of a tree in which the parent of `i` is
`(i - 1) / K`.  A heap in which one value has been changed is repaired by swaps along a path: these
are the steps, and when they are over.
-/

namespace PxcCore.Lib.KaryHeap

variable {α : Type*} [LinearOrder α] {K n : ℕ} {f g : ℕ → α} {pos c : ℕ}

def parent (K i : ℕ) : ℕ := (i - 1) / K

theorem parent_lt {i : ℕ} (hi : 0 < i) : parent K i < i :=
  lt_of_le_of_lt (Nat.div_le_self _ _) (Nat.sub_lt hi Nat.one_pos)

/-- The children of a node are next to each other. -/
theorem parent_eq_iff (hK : 0 < K) {i : ℕ} (hi : 0 < i) :
    parent K i = pos ↔ pos * K + 1 ≤ i ∧ i < pos * K + 1 + K := by
  rw [parent, Nat.div_eq_iff hK]
  omega

/-- No value is less than its parent. -/
def Ordered (K n : ℕ) (f : ℕ → α) : Prop := ∀ i < n, 0 < i → f (parent K i) ≤ f i

/-- The grandparent edges over `pos` are in order. -/
def Skips (K n : ℕ) (f : ℕ → α) (pos : ℕ) : Prop :=
  ∀ i < n, 0 < i → parent K i = pos → 0 < pos → f (parent K pos) ≤ f i

/-- The value at `pos` may be too large or too small. -/
structure Loose (K n : ℕ) (f : ℕ → α) (pos : ℕ) : Prop where
  edges : ∀ i < n, 0 < i → i ≠ pos → parent K i ≠ pos → f (parent K i) ≤ f i
  skips : Skips K n f pos

/-- The value at `pos` may be too small. -/
structure Rising (K n : ℕ) (f : ℕ → α) (pos : ℕ) : Prop where
  edges : ∀ i < n, 0 < i → i ≠ pos → f (parent K i) ≤ f i
  skips : Skips K n f pos

/-- The value at `pos` may be too large. -/
structure Sinking (K n : ℕ) (f : ℕ → α) (pos : ℕ) : Prop where
  edges : ∀ i < n, 0 < i → parent K i ≠ pos → f (parent K i) ≤ f i
  skips : Skips K n f pos

/-! ## A heap is ordered -/

/-- The first value is the least. -/
theorem Ordered.zero_le (h : Ordered K n f) {i : ℕ} (hi : i < n) : f 0 ≤ f i := by
  induction i using Nat.strong_induction_on with
  | _ i ih =>
    rcases Nat.eq_zero_or_pos i with rfl | hpos
    · exact le_rfl
    · have hlt := parent_lt (K := K) hpos
      exact (ih _ hlt (hlt.trans hi)).trans (h i hi hpos)

theorem Ordered.congr (h : Ordered K n f) (hfg : ∀ i < n, g i = f i) : Ordered K n g := by
  intro i hi hpos
  rw [hfg i hi, hfg _ ((parent_lt hpos).trans hi)]
  exact h i hi hpos

theorem Ordered.skips (h : Ordered K n f) (pos : ℕ) : Skips K n f pos := by
  rintro i hi hpos rfl hpar
  exact (h _ ((parent_lt hpos).trans hi) hpar).trans (h i hi hpos)

theorem Ordered.rising (h : Ordered K n f) (pos : ℕ) : Rising K n f pos :=
  ⟨fun i hi hpos _ ↦ h i hi hpos, h.skips pos⟩

/-- One value is replaced. -/
theorem Ordered.loose (h : Ordered K n f) (hfg : ∀ i < n, i ≠ pos → g i = f i) :
    Loose K n g pos where
  edges i hi hpos hne hpar := by
    rw [hfg i hi hne, hfg _ ((parent_lt hpos).trans hi) hpar]
    exact h i hi hpos
  skips i hi hpos hpar hp := by
    have hlt := parent_lt (K := K) hp
    have hlt' := parent_lt (K := K) hpos
    rw [hpar] at hlt'
    rw [hfg i hi hlt'.ne', hfg _ ((hlt.trans hlt').trans hi) hlt.ne]
    exact h.skips pos i hi hpos hpar hp

theorem Loose.rising (h : Loose K n f pos)
    (hc : ∀ i < n, 0 < i → parent K i = pos → f pos ≤ f i) : Rising K n f pos where
  edges i hi hpos hne := by
    by_cases hpar : parent K i = pos
    · rw [hpar]
      exact hc i hi hpos hpar
    · exact h.edges i hi hpos hne hpar
  skips := h.skips

theorem Loose.sinking (h : Loose K n f pos) (hp : 0 < pos → f (parent K pos) ≤ f pos) :
    Sinking K n f pos where
  edges i hi hpos hpar := by
    by_cases hne : i = pos
    · subst hne
      exact hp hpos
    · exact h.edges i hi hpos hne hpar
  skips := h.skips

/-! ## Repair -/

theorem Rising.finish (h : Rising K n f pos) (hp : 0 < pos → f (parent K pos) ≤ f pos) :
    Ordered K n f := by
  intro i hi hpos
  by_cases hne : i = pos
  · subst hne
    exact hp hpos
  · exact h.edges i hi hpos hne

/-- A value that is too small goes to its parent. -/
theorem Rising.swap (h : Rising K n f pos) (hlt : pos < n) (hp : 0 < pos)
    (hle : f pos ≤ f (parent K pos)) :
    Rising K n (f ∘ Equiv.swap pos (parent K pos)) (parent K pos) := by
  have hpp := parent_lt (K := K) hp
  generalize hq : parent K pos = q at hle hpp
  have hedge {i : ℕ} (hi : i < n) (hi0 : 0 < i) (hne : i ≠ pos) : f (parent K i) ≤ f i :=
    h.edges i hi hi0 hne
  constructor
  · intro i hi hi0 hne
    rw [Function.comp_apply, Function.comp_apply]
    by_cases hip : i = pos
    · rw [hip, hq, Equiv.swap_apply_right, Equiv.swap_apply_left]
      exact hle
    · rw [Equiv.swap_apply_of_ne_of_ne hip hne]
      by_cases hpar : parent K i = pos
      · rw [hpar, Equiv.swap_apply_left, ← hq]
        exact h.skips i hi hi0 hpar hp
      · by_cases hpar' : parent K i = q
        · rw [hpar', Equiv.swap_apply_right]
          exact hle.trans (hpar' ▸ hedge hi hi0 hip)
        · rw [Equiv.swap_apply_of_ne_of_ne hpar hpar']
          exact hedge hi hi0 hip
  · intro i hi hi0 hpar hq0
    have hqq := parent_lt (K := K) hq0
    rw [Function.comp_apply, Function.comp_apply,
      Equiv.swap_apply_of_ne_of_ne (hqq.trans hpp).ne hqq.ne]
    have hup : f (parent K q) ≤ f q := hedge (hpp.trans hlt) hq0 hpp.ne
    have hlt' := parent_lt (K := K) hi0
    by_cases hip : i = pos
    · rw [hip, Equiv.swap_apply_left]
      exact hup
    · rw [Equiv.swap_apply_of_ne_of_ne hip (hpar ▸ hlt').ne']
      exact hup.trans (hpar ▸ hedge hi hi0 hip)

theorem Sinking.finish (h : Sinking K n f pos)
    (hc : ∀ i < n, 0 < i → parent K i = pos → f pos ≤ f i) : Ordered K n f := by
  intro i hi hpos
  by_cases hpar : parent K i = pos
  · rw [hpar]
    exact hc i hi hpos hpar
  · exact h.edges i hi hpos hpar

/-- A value that is too large goes to the least child. -/
theorem Sinking.swap (h : Sinking K n f pos) (hc : c < n) (hc0 : 0 < c) (hpar : parent K c = pos)
    (hle : f c ≤ f pos) (hmin : ∀ i < n, 0 < i → parent K i = pos → f c ≤ f i) :
    Sinking K n (f ∘ Equiv.swap pos c) c := by
  have hlt : pos < c := hpar ▸ parent_lt hc0
  constructor
  · intro i hi hi0 hne
    rw [Function.comp_apply, Function.comp_apply]
    by_cases hip : i = pos
    · subst hip
      have hpp := parent_lt (K := K) hi0
      rw [Equiv.swap_apply_left, Equiv.swap_apply_of_ne_of_ne hpp.ne (hpp.trans hlt).ne]
      exact h.skips c hc hc0 hpar hi0
    · by_cases hic : i = c
      · rw [hic, hpar, Equiv.swap_apply_left, Equiv.swap_apply_right]
        exact hle
      · rw [Equiv.swap_apply_of_ne_of_ne hip hic]
        by_cases hpi : parent K i = pos
        · rw [hpi, Equiv.swap_apply_left]
          exact hmin i hi hi0 hpi
        · rw [Equiv.swap_apply_of_ne_of_ne hpi hne]
          exact h.edges i hi hi0 hpi
  · intro i hi hi0 hpi _
    have hlt' : c < i := hpi ▸ parent_lt hi0
    rw [Function.comp_apply, Function.comp_apply, hpar, Equiv.swap_apply_left,
      Equiv.swap_apply_of_ne_of_ne (hlt.trans hlt').ne' hlt'.ne']
    have := h.edges i hi hi0 (by rw [hpi]; exact hlt.ne')
    rwa [hpi] at this

end PxcCore.Lib.KaryHeap
