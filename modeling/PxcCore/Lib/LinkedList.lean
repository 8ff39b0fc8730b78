import Mathlib

/-!
# Linked lists

The nodes that are reached from a head by following links, as a list of their addresses.
-/

namespace PxcCore.Lib

universe u

variable {α : Type u}

/-- The links lead from this head through these nodes to the end. -/
inductive Linked (next : α → Option α) : Option α → List α → Prop where
  | nil : Linked next none []
  | cons {a : α} {l : List α} : Linked next (next a) l → Linked next (some a) (a :: l)

namespace Linked

variable {next next' : α → Option α} {head : Option α} {l l' : List α} {a : α}

/-- Links of other nodes do not matter. -/
theorem congr (h : Linked next head l) (heq : ∀ a ∈ l, next' a = next a) :
    Linked next' head l := by
  induction h with
  | nil => exact .nil
  | cons _ ih =>
    refine .cons ?_
    rw [heq _ List.mem_cons_self]
    exact ih fun b hb ↦ heq b (List.mem_cons_of_mem _ hb)

theorem eq_nil_iff (h : Linked next head l) : head = none ↔ l = [] := by
  cases h with
  | nil => simp
  | cons _ => simp

theorem of_cons (h : Linked next head (a :: l)) : head = some a ∧ Linked next (next a) l := by
  cases h with
  | cons h => exact ⟨rfl, h⟩

/-- A new node is put in front. -/
theorem push [DecidableEq α] (h : Linked next head l) (ha : a ∉ l) :
    Linked (Function.update next a head) (some a) (a :: l) := by
  refine .cons ?_
  rw [Function.update_self]
  refine h.congr fun b hb ↦ ?_
  have hne : b ≠ a := ne_of_mem_of_not_mem hb ha
  rw [Function.update_of_ne hne]

/-- The last node is linked to another list. -/
theorem append [DecidableEq α] {head' : Option α} (h : Linked next head l)
    (hlast : l.getLast? = some a) (h' : Linked next head' l') (hnodup : (l ++ l').Nodup) :
    Linked (Function.update next a head') head (l ++ l') := by
  induction h with
  | nil => cases hlast
  | @cons b l h ih =>
    refine .cons ?_
    rcases l.eq_nil_or_concat with rfl | ⟨l₀, c, rfl⟩
    · obtain rfl : b = a := Option.some.inj hlast
      rw [Function.update_self]
      exact h'.congr fun c hc ↦
        Function.update_of_ne (ne_of_mem_of_not_mem hc (List.nodup_cons.mp hnodup).1) _ _
    · obtain rfl : c = a := by
        rw [List.concat_eq_append, ← List.cons_append, List.getLast?_concat] at hlast
        exact Option.some.inj hlast
      have hb : b ≠ c := by
        rintro rfl
        simp at hnodup
      rw [Function.update_of_ne hb]
      exact ih (by simp) (List.nodup_cons.mp hnodup).2

/-- What a node is linked to is in the list. -/
theorem mem_next {b : α} (h : Linked next head l) (ha : a ∈ l) (hnext : next a = some b) :
    b ∈ l := by
  induction h with
  | nil => cases ha
  | cons h ih =>
    rcases List.mem_cons.mp ha with rfl | ha
    · rw [hnext] at h
      cases h with
      | cons _ => exact List.mem_cons_of_mem _ List.mem_cons_self
    · exact List.mem_cons_of_mem _ (ih ha)

/-- The node that is linked to nothing is the last one. -/
theorem getLast?_eq (h : Linked next head l) (ha : a ∈ l) (hnone : next a = none) :
    l.getLast? = some a := by
  induction h with
  | nil => cases ha
  | @cons b l h ih =>
    rcases List.mem_cons.mp ha with rfl | ha
    · rw [h.eq_nil_iff.mp hnone, List.getLast?_singleton]
    · rw [List.getLast?_cons, ih ha, Option.getD_some]

/-- The nodes are determined by the head. -/
theorem unique (h : Linked next head l) (h' : Linked next head l') : l = l' := by
  induction h generalizing l' with
  | nil =>
    cases h' with
    | nil => rfl
  | cons _ ih =>
    cases h' with
    | cons h' => rw [ih h']

end Linked

/-- One of the nodes changes. -/
theorem sum_map_update [DecidableEq α] {β : Type*} (f : β → ℕ) (nodes : α → β) {l : List α}
    (hnodup : l.Nodup) {a : α} (ha : a ∈ l) (node : β) :
    (l.map fun x ↦ f (Function.update nodes a node x)).sum + f (nodes a) =
      (l.map fun x ↦ f (nodes x)).sum + f node := by
  have hsum := List.sum_map_erase (fun x ↦ f (nodes x)) ha
  have hsum' := List.sum_map_erase (fun x ↦ f (Function.update nodes a node x)) ha
  have hothers : (l.erase a).map (fun x ↦ f (Function.update nodes a node x)) =
      (l.erase a).map fun x ↦ f (nodes x) := by
    refine List.map_congr_left fun x hx ↦ ?_
    rw [Function.update_of_ne (hnodup.mem_erase_iff.mp hx).1]
  rw [hothers, Function.update_self] at hsum'
  omega

end PxcCore.Lib
