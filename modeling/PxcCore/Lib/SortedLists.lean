import Mathlib

/-!
# Sorted lists

A range of a sorted list is found by two searches, and a list that is sorted by an injective rank
has one order only.
-/

namespace PxcCore.Lib.SortedLists

universe u v

variable {α : Type u} {β : Type v} {l : List α}

/-! ## Ranges -/

/-- Elements that come before all others of a list are all found before the first other. -/
theorem takeWhile_eq_filter {p : α → Bool} (hl : l.Pairwise fun a b ↦ p b → p a) :
    l.takeWhile p = l.filter p := by
  induction l with
  | nil => rfl
  | cons a l ih =>
    obtain ⟨ha, hl⟩ := List.pairwise_cons.1 hl
    by_cases hp : p a
    · rw [List.takeWhile_cons_of_pos hp, List.filter_cons_of_pos hp, ih hl]
    · rw [List.takeWhile_cons_of_neg hp, List.filter_cons_of_neg hp, eq_comm,
        List.filter_eq_nil_iff]
      exact fun b hb hpb ↦ hp (ha b hb hpb)

/-- A range starts after the elements that are too low, and ends with the first element from there
on that is not in it. -/
theorem takeWhile_dropWhile_eq_filter {r : α → α → Prop} {low p : α → Bool} (hl : l.Pairwise r)
    (hlow : ∀ a b, r a b → low b → low a) (hp : ∀ a, p a → ¬low a)
    (hrange : ∀ a b, r a b → ¬low a → p b → p a) :
    (l.dropWhile low).takeWhile p = l.filter p := by
  induction l with
  | nil => rfl
  | cons a l ih =>
    by_cases ha : low a
    · rw [List.dropWhile_cons_of_pos ha, List.filter_cons_of_neg fun hpa ↦ hp a hpa ha,
        ih (List.pairwise_cons.1 hl).2]
    · rw [List.dropWhile_cons_of_neg ha]
      refine takeWhile_eq_filter (hl.imp_of_mem fun {b c} hb _ hbc ↦ hrange b c hbc ?_)
      rcases List.mem_cons.1 hb with rfl | hb
      · exact ha
      · exact fun hlowb ↦ ha (hlow a b ((List.pairwise_cons.1 hl).1 b hb) hlowb)

/-! ## Ranks -/

section Rank

variable [LinearOrder β] {rank : α → β} {le : α → α → Prop} [DecidableRel le]

theorem pairwise_insertionSort_rank (hle : ∀ a b, le a b ↔ rank a ≤ rank b) (l : List α) :
    (l.insertionSort le).Pairwise fun a b ↦ rank a ≤ rank b := by
  have htotal : Std.Total le := ⟨fun a b ↦ by
    rw [hle, hle]
    exact le_total _ _⟩
  have htrans : IsTrans α le := ⟨fun a b c hab hbc ↦
    (hle a c).2 (((hle a b).1 hab).trans ((hle b c).1 hbc))⟩
  exact (List.pairwise_insertionSort le l).imp fun {a b} hab ↦ (hle a b).1 hab

/-- Without duplicates, a list that is sorted by an injective rank is strictly sorted. -/
theorem pairwise_rank_lt (hrank : Function.Injective rank)
    (hl : l.Pairwise fun a b ↦ rank a ≤ rank b) (hnodup : l.Nodup) :
    l.Pairwise fun a b ↦ rank a < rank b :=
  (hl.and hnodup).imp fun h ↦ lt_of_le_of_ne h.1 fun heq ↦ h.2 (hrank heq)

/-- Sorting and then keeping the elements that differ from the last one kept. -/
theorem destutter_insertionSort [DecidableEq α] (hrank : Function.Injective rank)
    (hle : ∀ a b, le a b ↔ rank a ≤ rank b) (l : List α) :
    ((l.insertionSort le).destutter (· ≠ ·)).Pairwise (fun a b ↦ rank a < rank b) ∧
      ∀ a, a ∈ (l.insertionSort le).destutter (· ≠ ·) ↔ a ∈ l := by
  have hsorted := pairwise_insertionSort_rank hle l
  have hantisymm : Std.Antisymm fun a b ↦ rank a ≤ rank b :=
    ⟨fun _ _ hab hba ↦ hrank (le_antisymm hab hba)⟩
  rw [hsorted.destutter_eq_dedup]
  refine ⟨pairwise_rank_lt hrank (hsorted.sublist (List.dedup_sublist _)) (List.nodup_dedup _),
    fun a ↦ ?_⟩
  rw [List.mem_dedup, (List.perm_insertionSort le l).mem_iff]

end Rank

end PxcCore.Lib.SortedLists
