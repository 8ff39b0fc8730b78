import Mathlib

/-!
# Families over a finite type

Lists, such as the queues of several parties, and the elements of all of them, and how many parties
have a property.
-/

namespace PxcCore.Lib

variable {S α : Type} [DecidableEq S]

/-- One of the lists is replaced by another one. -/
theorem forall_mem_update {lists : S → List α} {P : α → Prop} (h : ∀ s, ∀ a ∈ lists s, P a) {s : S}
    {l : List α} (hl : ∀ a ∈ l, P a) : ∀ t, ∀ a ∈ Function.update lists s l t, P a :=
  (Function.forall_update_iff lists fun _ l ↦ ∀ a ∈ l, P a).mpr ⟨hl, fun t _ ↦ h t⟩

variable [Fintype S]

/-- The elements of all these lists. -/
def total (lists : S → List α) : Multiset α := ∑ s, (lists s : Multiset α)

theorem total_update (lists : S → List α) (s : S) (l : List α) :
    total (Function.update lists s l) + lists s = total lists + l := by
  unfold total
  rw [← Finset.add_sum_erase _ _ (Finset.mem_univ s),
    ← Finset.add_sum_erase _ (fun s ↦ (lists s : Multiset α)) (Finset.mem_univ s),
    Finset.sum_congr rfl fun t ht ↦ by
      rw [Function.update_of_ne (Finset.ne_of_mem_erase ht)], Function.update_self]
  abel

theorem count_total_update [DecidableEq α] (lists : S → List α) (s : S) (l : List α) (a : α) :
    (total (Function.update lists s l)).count a + (lists s).count a =
      (total lists).count a + l.count a := by
  have hcount := congrArg (Multiset.count a) (total_update lists s l)
  rwa [Multiset.count_add, Multiset.count_add, Multiset.coe_count, Multiset.coe_count] at hcount

theorem count_le_count_total [DecidableEq α] (lists : S → List α) (s : S) (a : α) :
    (lists s).count a ≤ (total lists).count a := by
  have hupdate := count_total_update lists s [] a
  rw [List.count_nil] at hupdate
  omega

theorem total_update_append (lists : S → List α) (s : S) (l : List α) :
    total (Function.update lists s (lists s ++ l)) = total lists + l := by
  refine add_right_cancel (b := (lists s : Multiset α)) ?_
  rw [total_update, ← Multiset.coe_add]
  abel

/-- If a property of the elements changes at one of them, so does the number of those that have
it. -/
theorem card_filter_change {p q : S → Prop} [DecidablePred p] [DecidablePred q] {s : S}
    (h : ∀ t, t ≠ s → (p t ↔ q t)) :
    (Finset.univ.filter q).card + (if p s then 1 else 0) =
      (Finset.univ.filter p).card + if q s then 1 else 0 := by
  have hsplit (r : S → Prop) [DecidablePred r] : (Finset.univ.filter r).card =
      (if r s then 1 else 0) + ((Finset.univ.erase s).filter r).card := by
    rw [← Finset.insert_erase (Finset.mem_univ s), Finset.filter_insert]
    split_ifs with hr
    · rw [Finset.card_insert_of_notMem (by simp), Finset.erase_insert (by simp), Nat.add_comm]
    · rw [Finset.erase_insert (by simp), Nat.zero_add]
  have hrest : (Finset.univ.erase s).filter p = (Finset.univ.erase s).filter q :=
    Finset.filter_congr fun t ht ↦ h t (Finset.ne_of_mem_erase ht)
  rw [hsplit p, hsplit q, hrest]
  omega

end PxcCore.Lib
