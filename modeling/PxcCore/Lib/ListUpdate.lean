import Mathlib

/-!
# Updates of lists

What the elements of a list are after one of them has been overwritten or taken out.
-/

namespace PxcCore.Lib

universe u

variable {α : Type u} {l : List α} {i j : ℕ} {a b : α}

/-- The last element takes the place of one that goes out. -/
theorem perm_cons_set_dropLast (ha : l[i]? = some a) (hb : l.getLast? = some b) :
    l.Perm (a :: (l.set i b).dropLast) := by
  obtain ⟨hlt, rfl⟩ := List.getElem?_eq_some_iff.1 ha
  have hl : l = l.take i ++ l[i] :: l.drop (i + 1) := by
    rw [List.cons_getElem_drop_succ, List.take_append_drop]
  have hset : l.set i b = l.take i ++ b :: l.drop (i + 1) :=
    List.set_eq_take_append_cons_drop.trans (if_pos hlt)
  rw [hset]
  cases hd : l.drop (i + 1) using List.reverseRecOn with
  | nil =>
    rw [List.dropLast_concat]
    conv_lhs => rw [hl, hd]
    exact List.perm_append_comm
  | append_singleton ys y =>
    obtain rfl : y = b := by
      rw [hl, hd, ← List.cons_append, ← List.append_assoc, List.getLast?_concat] at hb
      exact Option.some.inj hb
    rw [← List.cons_append, ← List.append_assoc, List.dropLast_concat]
    conv_lhs => rw [hl, hd]
    refine List.perm_middle.trans (List.Perm.cons _ ?_)
    rw [← List.append_assoc]
    exact (List.perm_append_singleton y _).trans List.perm_middle.symm

/-- Two elements change places. -/
theorem perm_swap (ha : l[i]? = some a) (hb : l[j]? = some b) : ((l.set i b).set j a).Perm l := by
  obtain ⟨hi, rfl⟩ := List.getElem?_eq_some_iff.1 ha
  obtain ⟨hj, rfl⟩ := List.getElem?_eq_some_iff.1 hb
  have hswap : ((l.toArray.swap i j hi hj).toList).Perm l := (Array.swap_perm hi hj).toList
  rwa [Array.toList_swap] at hswap

theorem count_eraseIdx [DecidableEq α] (ha : l[i]? = some a) (b : α) :
    (l.eraseIdx i).count b + (if a = b then 1 else 0) = l.count b := by
  obtain ⟨hi, rfl⟩ := List.getElem?_eq_some_iff.1 ha
  rw [← (List.getElem_cons_eraseIdx_perm hi).count_eq b, List.count_cons]
  simp only [beq_iff_eq]

theorem filterMap_cons_eq {β : Type u} (f : α → Option β) (a : α) (l : List α) :
    (a :: l).filterMap f = (f a).toList ++ l.filterMap f := by
  rw [List.filterMap_cons]
  cases f a with
  | none => rfl
  | some x => rfl

/-- What is read off an element goes when another one takes its place. -/
theorem perm_filterMap_set {β : Type u} {f : α → Option β} (ha : l[i]? = some a) (b : α) :
    ((l.set i b).filterMap f ++ (f a).toList).Perm (l.filterMap f ++ (f b).toList) := by
  induction l generalizing i with
  | nil => cases ha
  | cons c l ih =>
    cases i with
    | zero =>
      obtain rfl : c = a := Option.some.inj ha
      rw [List.set_cons_zero, filterMap_cons_eq, filterMap_cons_eq, List.append_assoc,
        List.append_assoc]
      refine List.perm_append_comm.trans ?_
      rw [List.append_assoc]
      exact List.perm_append_comm_assoc _ _ _
    | succ i =>
      rw [List.set_cons_succ, filterMap_cons_eq, filterMap_cons_eq, List.append_assoc,
        List.append_assoc]
      exact (ih ha).append_left _

/-! ## Pieces -/

/-- A list with other elements in the place of some of it. -/
def patch (l : List α) (i : ℕ) (new : List α) : List α := l.take i ++ new ++ l.drop (i + new.length)

variable {new : List α}

theorem length_patch (h : i + new.length ≤ l.length) : (patch l i new).length = l.length := by
  rw [patch, List.length_append, List.length_append, List.length_take, List.length_drop]
  omega

theorem patch_append_left {l₁ : List α} (h : i + new.length ≤ l₁.length) (l₂ : List α) :
    patch (l₁ ++ l₂) i new = patch l₁ i new ++ l₂ := by
  rw [patch, patch, List.take_append_of_le_length (by omega), List.drop_append_of_le_length h,
    List.append_assoc, List.append_assoc, List.append_assoc]

theorem patch_append_right (l₁ l₂ : List α) (i : ℕ) (new : List α) :
    patch (l₁ ++ l₂) (l₁.length + i) new = l₁ ++ patch l₂ i new := by
  rw [patch, patch, List.take_length_add_append, Nat.add_assoc, List.drop_length_add_append,
    List.append_assoc, List.append_assoc, List.append_assoc]

theorem take_patch {k : ℕ} (h : i + new.length ≤ k) (hk : k ≤ l.length) :
    (patch l i new).take k = patch (l.take k) i new := by
  have hlength : (l.take k).length = k := List.length_take_of_le hk
  have hl := patch_append_left (h.trans hlength.ge) (l.drop k)
  rw [List.take_append_drop] at hl
  rw [hl, List.take_left' ((length_patch (h.trans hlength.ge)).trans hlength)]

theorem take_patch_of_le {k : ℕ} (h : k ≤ i) (hi : i ≤ l.length) :
    (patch l i new).take k = l.take k := by
  rw [patch, List.append_assoc, List.take_append_of_le_length, List.take_take, Nat.min_eq_left h]
  rwa [List.length_take_of_le hi]

theorem drop_patch_of_le {k : ℕ} (h : i + new.length ≤ k) (hi : i ≤ l.length) :
    (patch l i new).drop k = l.drop k := by
  have hlength : (l.take i ++ new).length = i + new.length := by
    rw [List.length_append, List.length_take_of_le hi]
  obtain ⟨j, rfl⟩ := Nat.exists_eq_add_of_le h
  rw [patch, ← hlength, List.drop_length_add_append, List.drop_drop, hlength]

theorem drop_patch {k : ℕ} (h : k ≤ l.length) :
    (patch l (k + i) new).drop k = patch (l.drop k) i new := by
  have hl : patch l (k + i) new = l.take k ++ patch (l.drop k) i new := by
    have := patch_append_right (l.take k) (l.drop k) i new
    rwa [List.take_append_drop, List.length_take_of_le h] at this
  rw [hl, List.drop_left' (List.length_take_of_le h)]

end PxcCore.Lib
