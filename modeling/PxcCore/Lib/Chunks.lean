import Mathlib

/-!
# Lists cut into chunks

A list cut into chunks of `n` elements, of which only the last may have fewer.
-/

namespace PxcCore.Lib

universe u

variable {α : Type u} {n i : ℕ} {front chunks : List (List α)} {last : List α}

/-- Every chunk but the last is full, and the last one is not empty. -/
inductive Chunked (n : ℕ) : List (List α) → Prop where
  | nil : Chunked n []
  | snoc {front : List (List α)} {last : List α} (hfront : ∀ c ∈ front, c.length = n)
      (hlast : last ≠ []) (hle : last.length ≤ n) : Chunked n (front ++ [last])

theorem length_flatten_of_full (hfront : ∀ c ∈ front, c.length = n) :
    front.flatten.length = front.length * n := by
  rw [List.length_flatten, List.map_eq_replicate_iff.2 hfront, List.sum_replicate, smul_eq_mul]

/-- The chunk of an element is the quotient of its index, and its place there is the remainder. -/
theorem flatten_concat_getElem? (hfront : ∀ c ∈ front, c.length = n) (hle : last.length ≤ n)
    (hn : 0 < n) :
    (front ++ [last]).flatten[i]? = ((front ++ [last])[i / n]?).bind (·[i % n]?) := by
  induction front generalizing i with
  | nil =>
    rcases Nat.lt_or_ge i n with h | h
    · simp [Nat.div_eq_of_lt h, Nat.mod_eq_of_lt h]
    · have hdiv : 0 < i / n := Nat.div_pos h hn
      rw [List.nil_append, List.flatten_singleton, List.getElem?_eq_none (hle.trans h),
        List.getElem?_eq_none hdiv, Option.bind_none]
  | cons c front ih =>
    have hc : c.length = n := hfront c List.mem_cons_self
    rw [List.cons_append, List.flatten_cons]
    rcases Nat.lt_or_ge i n with h | h
    · rw [List.getElem?_append_left (hc ▸ h), Nat.div_eq_of_lt h, Nat.mod_eq_of_lt h]
      rfl
    · rw [List.getElem?_append_right (hc ▸ h), hc,
        ih fun c' hc' ↦ hfront c' (List.mem_cons_of_mem _ hc'), Nat.div_eq_sub_div hn h,
        List.getElem?_cons_succ, Nat.mod_eq_sub_mod h]

/-- An element is overwritten in its chunk. -/
theorem flatten_concat_set (hfront : ∀ c ∈ front, c.length = n) (hle : last.length ≤ n)
    (hn : 0 < n) (a : α) :
    (front ++ [last]).flatten.set i a =
      ((front ++ [last]).modify (i / n) (·.set (i % n) a)).flatten := by
  induction front generalizing i with
  | nil =>
    rcases Nat.lt_or_ge i n with h | h
    · simp [Nat.div_eq_of_lt h, Nat.mod_eq_of_lt h]
    · have hdiv : 0 < i / n := Nat.div_pos h hn
      rw [List.nil_append, List.flatten_singleton, List.set_eq_of_length_le (hle.trans h),
        List.modify_eq_self hdiv, List.flatten_singleton]
  | cons c front ih =>
    have hc : c.length = n := hfront c List.mem_cons_self
    rw [List.cons_append, List.flatten_cons]
    rcases Nat.lt_or_ge i n with h | h
    · rw [List.set_append_left _ _ (hc ▸ h), Nat.div_eq_of_lt h, Nat.mod_eq_of_lt h]
      rfl
    · rw [List.set_append_right _ _ (hc ▸ h), hc,
        ih fun c' hc' ↦ hfront c' (List.mem_cons_of_mem _ hc'), Nat.div_eq_sub_div hn h,
        List.modify_succ_cons, List.flatten_cons, Nat.mod_eq_sub_mod h]

namespace Chunked

theorem of_full (hfront : ∀ c ∈ front, c.length = n) (hn : 0 < n) : Chunked n front := by
  cases front using List.reverseRecOn with
  | nil => exact .nil
  | append_singleton front last =>
    have hlast : last.length = n := hfront last (by simp)
    refine .snoc (fun c hc ↦ hfront c (List.mem_append_left _ hc)) ?_ hlast.le
    exact List.length_pos_iff.1 (hlast ▸ hn)

theorem getElem? (h : Chunked n chunks) (hn : 0 < n) :
    chunks.flatten[i]? = (chunks[i / n]?).bind (·[i % n]?) := by
  cases h with
  | nil => rfl
  | snoc hfront _ hle => exact flatten_concat_getElem? hfront hle hn

theorem set (h : Chunked n chunks) (hn : 0 < n) (a : α) :
    chunks.flatten.set i a = (chunks.modify (i / n) (·.set (i % n) a)).flatten := by
  cases h with
  | nil => simp
  | snoc hfront _ hle => exact flatten_concat_set hfront hle hn a

/-- Whether a list is cut into chunks depends only on their lengths. -/
theorem of_map_length {chunks' : List (List α)} (h : Chunked n chunks)
    (hlength : chunks'.map List.length = chunks.map List.length) : Chunked n chunks' := by
  cases h with
  | nil =>
    obtain rfl : chunks' = [] := List.map_eq_nil_iff.1 hlength
    exact .nil
  | @snoc front last hfront hlast hle =>
    rw [List.map_append, List.map_singleton] at hlength
    obtain ⟨front', lasts', rfl, hfront', hlasts'⟩ := List.map_eq_append_iff.1 hlength
    obtain ⟨last', rfl, hlast'⟩ := List.map_eq_singleton_iff.1 hlasts'
    have hpos : 0 < last'.length := hlast' ▸ List.length_pos_iff.2 hlast
    refine .snoc (fun c hc ↦ ?_) (List.length_pos_iff.1 hpos) (hlast' ▸ hle)
    have hmem : c.length ∈ front.map List.length := hfront' ▸ List.mem_map_of_mem hc
    obtain ⟨d, hd, hcd⟩ := List.mem_map.1 hmem
    exact hcd.symm.trans (hfront d hd)

/-- Overwriting an element of a chunk keeps the cut. -/
theorem modify_set (h : Chunked n chunks) (i j : ℕ) (a : α) :
    Chunked n (chunks.modify i (·.set j a)) := by
  refine h.of_map_length ?_
  apply List.ext_getElem?
  intro k
  rw [List.getElem?_map, List.getElem?_map]
  rcases eq_or_ne i k with rfl | hne
  · rw [List.getElem?_modify_eq]
    cases chunks[i]? with
    | none => rfl
    | some c => exact congrArg some List.length_set
  · rw [List.getElem?_modify_ne _ _ hne]

end Chunked

end PxcCore.Lib
