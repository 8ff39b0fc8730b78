import Mathlib

/-!
# An index that lists keys under words

A map from words to lists of keys stands for a relation between words and keys.
-/

namespace PxcCore.Lib

universe u v

variable {W : Type u} {K : Type v} [DecidableEq W]

/-- The keys listed under a word. -/
def keysOf (index : AList fun _ : W ↦ List K) (w : W) : List K := (index.lookup w).getD []

/-- The index lists under each word the keys related to it, each once, and no word without keys. -/
structure ListsKeys (index : AList fun _ : W ↦ List K) (r : W → K → Prop) : Prop where
  mem : ∀ w k, k ∈ keysOf index w ↔ r w k
  nodup : ∀ w, (keysOf index w).Nodup
  ne_nil : ∀ w keys, index.lookup w = some keys → keys ≠ []

variable {index : AList fun _ : W ↦ List K} {r r' : W → K → Prop} {w : W} {keys : List K}

@[simp] theorem keysOf_insert_self : keysOf (index.insert w keys) w = keys := by
  rw [keysOf, AList.lookup_insert, Option.getD_some]

@[simp] theorem keysOf_insert_ne {w' : W} (h : w' ≠ w) :
    keysOf (index.insert w keys) w' = keysOf index w' := by
  rw [keysOf, AList.lookup_insert_ne h, keysOf]

@[simp] theorem keysOf_erase_self : keysOf (index.erase w) w = [] := by
  rw [keysOf, AList.lookup_erase, Option.getD_none]

@[simp] theorem keysOf_erase_ne {w' : W} (h : w' ≠ w) :
    keysOf (index.erase w) w' = keysOf index w' := by
  rw [keysOf, AList.lookup_erase_ne h, keysOf]

namespace ListsKeys

theorem empty : ListsKeys (∅ : AList fun _ : W ↦ List K) fun _ _ ↦ False where
  mem w k := by simp [keysOf]
  nodup w := by simp [keysOf]
  ne_nil w keys h := by simp at h

theorem congr (h : ListsKeys index r) (hr : ∀ w k, r w k ↔ r' w k) : ListsKeys index r' where
  mem w k := (h.mem w k).trans (hr w k)
  nodup := h.nodup
  ne_nil := h.ne_nil

/-- The relation changes under one word, whose new keys are listed. -/
theorem insert (h : ListsKeys index r) (hne : keys ≠ []) (hnodup : keys.Nodup)
    (hkeys : ∀ k, k ∈ keys ↔ r' w k) (hr : ∀ w' ≠ w, ∀ k, r w' k ↔ r' w' k) :
    ListsKeys (index.insert w keys) r' where
  mem w' k := by
    by_cases hw : w' = w
    · subst hw
      rw [keysOf_insert_self, hkeys]
    · rw [keysOf_insert_ne hw, h.mem, hr w' hw]
  nodup w' := by
    by_cases hw : w' = w
    · subst hw
      rwa [keysOf_insert_self]
    · rw [keysOf_insert_ne hw]
      exact h.nodup w'
  ne_nil w' keys' h' := by
    by_cases hw : w' = w
    · subst hw
      rw [AList.lookup_insert, Option.some.injEq] at h'
      exact h' ▸ hne
    · rw [AList.lookup_insert_ne hw] at h'
      exact h.ne_nil w' keys' h'

/-- The relation changes under one word, which has no keys any more. -/
theorem erase (h : ListsKeys index r) (hkeys : ∀ k, ¬r' w k)
    (hr : ∀ w' ≠ w, ∀ k, r w' k ↔ r' w' k) :
    ListsKeys (index.erase w) r' where
  mem w' k := by
    by_cases hw : w' = w
    · subst hw
      simp [hkeys]
    · rw [keysOf_erase_ne hw, h.mem, hr w' hw]
  nodup w' := by
    by_cases hw : w' = w
    · subst hw
      simp
    · rw [keysOf_erase_ne hw]
      exact h.nodup w'
  ne_nil w' keys' h' := by
    by_cases hw : w' = w
    · subst hw
      simp at h'
    · rw [AList.lookup_erase_ne hw] at h'
      exact h.ne_nil w' keys' h'

end ListsKeys

end PxcCore.Lib
