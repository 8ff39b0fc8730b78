import Mathlib

/-!
# Searching in a list that grows

A pattern occurs at a position of a list if it is a prefix of what lies behind this position.  What
is appended to the list later may complete an occurrence that begins in front of its end.
-/

namespace PxcCore.Lib

universe u

variable {α : Type u} {pattern l : List α} {i j k : ℕ}

/-- The pattern occurs at this position. -/
def OccursAt (pattern l : List α) (i : ℕ) : Prop := pattern <+: l.drop i

/-- The position of the first occurrence. -/
structure FirstAt (pattern l : List α) (i : ℕ) : Prop where
  occurs : OccursAt pattern l i
  le : ∀ j, OccursAt pattern l j → i ≤ j

/-- No occurrence begins before this position, whatever is appended. -/
def NoneBefore (pattern l : List α) (k : ℕ) : Prop :=
  ∀ more i, OccursAt pattern (l ++ more) i → k ≤ i

theorem infix_iff_exists_occursAt : pattern <:+: l ↔ ∃ i, OccursAt pattern l i := by
  constructor
  · rintro ⟨front, back, rfl⟩
    refine ⟨front.length, back, ?_⟩
    rw [List.append_assoc, List.drop_left]
  · rintro ⟨i, h⟩
    exact h.isInfix.trans (List.drop_suffix i l).isInfix

/-- An occurrence behind the first `k` elements. -/
theorem occursAt_drop (hk : k ≤ l.length) (more : List α) :
    OccursAt pattern (l.drop k ++ more) i ↔ OccursAt pattern (l ++ more) (k + i) := by
  rw [OccursAt, OccursAt, ← List.drop_drop, List.drop_append_of_le_length hk]

namespace NoneBefore

theorem zero (pattern l : List α) : NoneBefore pattern l 0 := fun _ _ _ ↦ Nat.zero_le _

theorem le (h : NoneBefore pattern l k) (hi : OccursAt pattern l i) : k ≤ i :=
  h [] i (by rwa [List.append_nil])

/-- Appending keeps it. -/
theorem append (h : NoneBefore pattern l k) (x : List α) : NoneBefore pattern (l ++ x) k := by
  intro more i hi
  rw [List.append_assoc] at hi
  exact h (x ++ more) i hi

/-- The search goes on behind the first `k` elements. -/
theorem add (h : NoneBefore pattern l k) (hk : k ≤ l.length)
    (h' : NoneBefore pattern (l.drop k) j) : NoneBefore pattern l (k + j) := by
  intro more i hi
  obtain ⟨d, rfl⟩ := Nat.exists_eq_add_of_le (h more i hi)
  exact Nat.add_le_add_left (h' more d ((occursAt_drop hk more).mpr hi)) k

/-- Elements that are not the first one of the pattern are skipped. -/
theorem of_head {c : α} {tail : List α} (hk : k ≤ l.length)
    (h : ∀ a ∈ l.take k, a ≠ c) : NoneBefore (c :: tail) l k := by
  intro more i hi
  by_contra hlt
  rw [Nat.not_le] at hlt
  have hdrop : (l ++ more).drop i = l[i] :: (l.drop (i + 1) ++ more) := by
    rw [List.drop_append_of_le_length (hlt.le.trans hk),
      List.drop_eq_getElem_cons (hlt.trans_le hk), List.cons_append]
  rw [OccursAt, hdrop, List.cons_prefix_cons] at hi
  have hmem : l[i] ∈ l.take k := List.mem_take_iff_getElem.mpr ⟨i, by omega, rfl⟩
  exact h _ hmem hi.1.symm

/-- A list that is long enough and does not begin with the pattern. -/
theorem one (hlen : pattern.length ≤ l.length) (h : ¬pattern <+: l) : NoneBefore pattern l 1 := by
  intro more i hi
  rcases Nat.eq_zero_or_pos i with rfl | hpos
  · rw [OccursAt, List.drop_zero] at hi
    exact absurd (List.prefix_of_prefix_length_le hi (List.prefix_append l more) hlen) h
  · exact hpos

theorem firstAt (h : NoneBefore pattern l k) (hk : OccursAt pattern l k) : FirstAt pattern l k :=
  ⟨hk, fun _ hi ↦ h.le hi⟩

/-- What is skipped has no occurrence. -/
theorem infix_drop (h : NoneBefore pattern l k) : pattern <:+: l ↔ pattern <:+: l.drop k := by
  refine ⟨fun hinfix ↦ ?_, fun hinfix ↦ hinfix.trans (List.drop_suffix k l).isInfix⟩
  obtain ⟨i, hi⟩ := infix_iff_exists_occursAt.mp hinfix
  obtain ⟨d, rfl⟩ := Nat.exists_eq_add_of_le (h.le hi)
  refine infix_iff_exists_occursAt.mpr ⟨d, ?_⟩
  rwa [OccursAt, List.drop_drop]

end NoneBefore

end PxcCore.Lib
