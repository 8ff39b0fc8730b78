import Mathlib

/-!
# Bucket arrays

An array of buckets, each empty or holding one entry, is a function of which only the first `n`
values matter.  Its contents are counted as a bag, so that moving an entry from one bucket to
another does not change them.
-/

namespace PxcCore.Lib.Buckets

variable {α : Type*} {n : ℕ} {c : ℕ → Option α}

/-- The entries in the first `n` buckets. -/
def contents (n : ℕ) (c : ℕ → Option α) : Multiset α := ((List.range n).filterMap c : List α)

theorem mem_contents {a : α} : a ∈ contents n c ↔ ∃ b < n, c b = some a := by
  simp [contents]

@[simp] theorem contents_none : contents n (fun _ ↦ (none : Option α)) = 0 := by
  simp [contents]

theorem contents_succ (n : ℕ) (c : ℕ → Option α) :
    contents (n + 1) c = contents n c + ((c n).toList : Multiset α) := by
  rw [contents, contents, List.range_succ, List.filterMap_append, ← Multiset.coe_add]
  cases hc : c n <;> simp [hc]

theorem contents_update_of_le {b : ℕ} (h : n ≤ b) (x : Option α) :
    contents n (Function.update c b x) = contents n c := by
  unfold contents
  congr 1
  apply List.filterMap_congr
  intro i hi
  rw [Function.update_of_ne (by have := List.mem_range.1 hi; omega)]

/-- Filling an empty bucket adds its entry. -/
theorem contents_update_some {b : ℕ} (hb : b < n) (hc : c b = none) (a : α) :
    contents n (Function.update c b (some a)) = a ::ₘ contents n c := by
  induction n with
  | zero => omega
  | succ n ih =>
    rw [contents_succ, contents_succ]
    by_cases h : b = n
    · subst h
      rw [contents_update_of_le le_rfl, Function.update_self, hc]
      simp [Multiset.add_comm _ ({a} : Multiset α), Multiset.singleton_add]
    · rw [ih (by omega), Function.update_of_ne (Ne.symm h), Multiset.cons_add]

/-- Emptying a bucket takes its entry away. -/
theorem cons_contents_update_none {b : ℕ} (hb : b < n) {a : α} (hc : c b = some a) :
    a ::ₘ contents n (Function.update c b none) = contents n c := by
  rw [← contents_update_some hb (Function.update_self b none c) a, Function.update_idem, ← hc,
    Function.update_eq_self]

/-- Moving an entry into an empty bucket keeps the contents. -/
theorem contents_move {b d : ℕ} (hb : b < n) (hd : d < n) (hc : c b = none) {a : α}
    (hda : c d = some a) :
    contents n (Function.update (Function.update c b (some a)) d none) = contents n c := by
  have hne : d ≠ b := by
    rintro rfl
    simp [hc] at hda
  have h1 := contents_update_some hb hc a
  rw [← cons_contents_update_none hd (c := Function.update c b (some a)) (a := a)
    (by rwa [Function.update_of_ne hne])] at h1
  exact Multiset.cons_inj_right a |>.1 h1

theorem contents_congr {d : ℕ → Option α} (h : ∀ b < n, c b = d b) :
    contents n c = contents n d := by
  unfold contents
  congr 1
  apply List.filterMap_congr
  intro b hb
  exact h b (List.mem_range.1 hb)

/-- The entries in some of the buckets and those in the others. -/
theorem contents_add_contents (n : ℕ) (c : ℕ → Option α) (p : ℕ → Prop) [DecidablePred p] :
    contents n (fun b ↦ if p b then none else c b) +
      contents n (fun b ↦ if p b then c b else none) =
      contents n c := by
  induction n with
  | zero => rfl
  | succ n ih =>
    rw [contents_succ, contents_succ, contents_succ, ← ih]
    split_ifs
    · simp [add_assoc]
    · simp [add_right_comm]

theorem card_contents_le (n : ℕ) (c : ℕ → Option α) : (contents n c).card ≤ n := by
  have := List.length_filterMap_le c (List.range n)
  simpa [contents] using this

/-- With fewer entries than buckets, some bucket is empty. -/
theorem exists_empty (h : (contents n c).card < n) : ∃ b < n, c b = none := by
  by_contra hne
  push Not at hne
  have hall : ((List.range n).filterMap c).length = (List.range n).length := by
    rw [List.filterMap_length_eq_length]
    intro b hb
    rw [Option.isSome_iff_ne_none]
    exact hne b (List.mem_range.1 hb)
  rw [List.length_range] at hall
  simp [contents, hall] at h

/-! ## Blocks of buckets -/

/-- Counting the buckets of one block of `w` among all of them. -/
theorem countP_block {w d : ℕ} (hw : 0 < w) (hd : d < n) (p : ℕ → Bool) :
    (List.range (n * w)).countP (fun b ↦ decide (b / w = d) && p b) =
      (List.range w).countP fun i ↦ p (d * w + i) := by
  obtain ⟨r, rfl⟩ := Nat.exists_eq_add_of_lt hd
  have hsplit : (d + r + 1) * w = d * w + (w + r * w) := by ring
  rw [hsplit, List.range_add, List.range_add, List.map_append, List.countP_append,
    List.countP_append, List.countP_map, List.map_map, List.countP_map]
  have hbefore : (List.range (d * w)).countP (fun b ↦ decide (b / w = d) && p b) = 0 := by
    rw [List.countP_eq_zero]
    intro b hb
    have := Nat.div_lt_of_lt_mul (Nat.mul_comm d w ▸ List.mem_range.1 hb)
    simp [this.ne]
  have hbehind : (List.range (r * w)).countP
      ((fun b ↦ decide (b / w = d) && p b) ∘ ((d * w + ·) ∘ (w + ·))) = 0 := by
    rw [List.countP_eq_zero]
    intro b _
    have : (d * w + (w + b)) / w = d + 1 + b / w := by
      rw [show d * w + (w + b) = b + (d + 1) * w by ring, Nat.add_mul_div_right _ _ hw]
      omega
    simp only [Function.comp_apply, this, Bool.and_eq_true, decide_eq_true_eq]
    rintro ⟨he, -⟩
    have := Nat.le_add_right (d + 1) (b / w)
    exact absurd he (by omega)
  rw [hbefore, hbehind, Nat.zero_add, Nat.add_zero]
  apply List.countP_congr
  intro i hi
  have : (d * w + i) / w = d := by
    rw [Nat.add_comm, Nat.add_mul_div_right _ _ hw, Nat.div_eq_of_lt (List.mem_range.1 hi),
      Nat.zero_add]
  simp [this]

end PxcCore.Lib.Buckets
