import PxcCore.Lib.KeyMap

/-!
# Ordered keys

A comparison of keys is a strict weak order; keys that are not less than one another are the same.
Sorted lists of entries stand for maps from the classes of these keys.
-/

namespace PxcCore.Lib

/-- A strict weak order on keys. -/
structure KeyOrder (K : Type*) where
  less : K → K → Bool
  irrefl : ∀ a, less a a = false
  trans : ∀ {a b c}, less a b = true → less b c = true → less a c = true
  between : ∀ {a b}, less a b = true → ∀ c, less a c = true ∨ less c b = true

namespace KeyOrder

variable {K V : Type*} (C : KeyOrder K)

/-- Keys that are not less than one another. -/
def toKeyEq : KeyEq K where
  eq a b := !C.less a b && !C.less b a
  refl a := by simp [C.irrefl]
  symm {a b} h := by rwa [Bool.and_comm]
  trans {a b c} hab hbc := by
    simp only [Bool.and_eq_true, Bool.not_eq_true'] at hab hbc ⊢
    constructor
    · by_contra h
      rw [Bool.not_eq_false] at h
      rcases C.between h b with h | h
      · simp [hab.1] at h
      · simp [hbc.1] at h
    · by_contra h
      rw [Bool.not_eq_false] at h
      rcases C.between h b with h | h
      · simp [hbc.2] at h
      · simp [hab.2] at h

variable {C} {a b c : K}

theorem eq_iff : C.toKeyEq.eq a b = true ↔ ¬C.less a b = true ∧ ¬C.less b a = true := by
  simp [toKeyEq]

theorem asymm (h : C.less a b = true) : ¬C.less b a = true := by
  intro h'
  have hself := C.trans h h'
  rw [C.irrefl] at hself
  cases hself

theorem not_eq (h : C.less a b = true) : ¬C.toKeyEq.eq a b = true := fun heq ↦ (eq_iff.1 heq).1 h

theorem not_eq' (h : C.less a b = true) : ¬C.toKeyEq.eq b a = true := fun heq ↦ (eq_iff.1 heq).2 h

/-- A key is less than another one, or greater, or the same. -/
theorem less_of_not (h : ¬C.less a b = true) (hne : ¬C.toKeyEq.eq a b = true) :
    C.less b a = true := by
  by_contra h'
  exact hne (eq_iff.2 ⟨h, h'⟩)

variable (C) in
/-- The keys of the entries increase. -/
def Sorted (l : List (K × V)) : Prop := l.Pairwise fun x y ↦ C.less x.1 y.1 = true

variable {l l' : List (K × V)} {x : K × V}

theorem sorted_append_cons : C.Sorted (l ++ x :: l') ↔
    C.Sorted l ∧ C.Sorted l' ∧ (∀ y ∈ l, C.less y.1 x.1 = true) ∧
      ∀ y ∈ l', C.less x.1 y.1 = true := by
  rw [Sorted, List.pairwise_append, List.pairwise_cons]
  constructor
  · rintro ⟨hl, ⟨hx, hl'⟩, hcross⟩
    exact ⟨hl, hl', fun y hy ↦ hcross y hy x List.mem_cons_self, hx⟩
  · rintro ⟨hl, hl', hlx, hxl'⟩
    refine ⟨hl, ⟨hxl', hl'⟩, fun y hy z hz ↦ ?_⟩
    rcases List.mem_cons.1 hz with rfl | hz
    · exact hlx y hy
    · exact C.trans (hlx y hy) (hxl' z hz)

/-- A key that is less than an entry is less than all that follow. -/
theorem Sorted.less_back (h : C.Sorted (l ++ x :: l')) (hless : C.less a x.1 = true) :
    ∀ y ∈ x :: l', C.less a y.1 = true := by
  intro y hy
  rcases List.mem_cons.1 hy with rfl | hy
  · exact hless
  · exact C.trans hless ((sorted_append_cons.1 h).2.2.2 y hy)

/-- A key that is greater than an entry is greater than all before it. -/
theorem Sorted.less_front (h : C.Sorted (l ++ x :: l')) (hless : C.less x.1 a = true) :
    ∀ y ∈ l ++ [x], C.less y.1 a = true := by
  intro y hy
  rcases List.mem_append.1 hy with hy | hy
  · exact C.trans ((sorted_append_cons.1 h).2.2.1 y hy) hless
  · rw [List.mem_singleton.1 hy]
    exact hless

/-- An entry goes between those that are less and those that are greater. -/
theorem Sorted.insert (h : C.Sorted (l ++ l')) (hl : ∀ y ∈ l, C.less y.1 x.1 = true)
    (hl' : ∀ y ∈ l', C.less x.1 y.1 = true) : C.Sorted (l ++ x :: l') := by
  obtain ⟨hsl, hsl', -⟩ := List.pairwise_append.1 h
  exact sorted_append_cons.2 ⟨hsl, hsl', hl, hl'⟩

theorem Sorted.sublist (h : C.Sorted l) (hsub : l'.Sublist l) : C.Sorted l' :=
  List.Pairwise.sublist hsub h

/-- No other entry has the key of this one. -/
theorem Sorted.not_eq (h : C.Sorted (l ++ x :: l')) {y : K × V} (hy : y ∈ l ++ l') :
    ¬C.toKeyEq.eq y.1 x.1 = true := by
  obtain ⟨-, -, hl, hl'⟩ := sorted_append_cons.1 h
  rcases List.mem_append.1 hy with hy | hy
  · exact KeyOrder.not_eq (hl y hy)
  · intro heq
    exact KeyOrder.not_eq (hl' y hy) (C.toKeyEq.symm heq)

end KeyOrder

end PxcCore.Lib
