import Mathlib

/-!
# Bit strings

The low bits of a number, the highest one first, as a shift register holds them, and texts of
fixed-width groups of bits.
-/

namespace PxcCore.Lib

/-- The lowest `k` bits of a number. -/
def bits : ℕ → ℕ → List Bool
  | 0, _ => []
  | k + 1, v => v.testBit k :: bits k v

@[simp] theorem bits_zero_width (v : ℕ) : bits 0 v = [] := rfl

@[simp] theorem length_bits (k v : ℕ) : (bits k v).length = k := by
  induction k with
  | zero => rfl
  | succ k ih => rw [bits, List.length_cons, ih]

/-- Bits above the width do not count. -/
theorem bits_congr {k v w : ℕ} (h : ∀ i < k, v.testBit i = w.testBit i) : bits k v = bits k w := by
  induction k with
  | zero => rfl
  | succ k ih =>
    rw [bits, bits, h k k.lt_succ_self, ih fun i hi ↦ h i (hi.trans k.lt_succ_self)]

theorem testBit_of_bits {k v w : ℕ} (h : bits k v = bits k w) {i : ℕ} (hi : i < k) :
    v.testBit i = w.testBit i := by
  induction k with
  | zero => exact absurd hi i.not_lt_zero
  | succ k ih =>
    obtain ⟨hk, hrest⟩ := List.cons.inj h
    rcases Nat.lt_succ_iff_lt_or_eq.1 hi with hlt | rfl
    · exact ih hrest hlt
    · exact hk

theorem bits_inj {k v w : ℕ} (hv : v < 2 ^ k) (hw : w < 2 ^ k) (h : bits k v = bits k w) :
    v = w := by
  apply Nat.eq_of_testBit_eq
  intro i
  rcases lt_or_ge i k with hi | hi
  · exact testBit_of_bits h hi
  · have hpow : 2 ^ k ≤ 2 ^ i := Nat.pow_le_pow_right Nat.two_pos hi
    rw [Nat.testBit_lt_two_pow (hv.trans_le hpow), Nat.testBit_lt_two_pow (hw.trans_le hpow)]

@[simp] theorem bits_zero (k : ℕ) : bits k 0 = List.replicate k false := by
  induction k with
  | zero => rfl
  | succ k ih => rw [bits, ih, Nat.zero_testBit, List.replicate_succ]

theorem bits_mod {k n : ℕ} (v : ℕ) (h : k ≤ n) : bits k (v % 2 ^ n) = bits k v := by
  apply bits_congr
  intro i hi
  rw [Nat.testBit_mod_two_pow, decide_eq_true (hi.trans_le h), Bool.true_and]

/-- The low bits are clear exactly if the remainder is zero. -/
theorem bits_eq_replicate {k v : ℕ} : bits k v = List.replicate k false ↔ v % 2 ^ k = 0 := by
  rw [← bits_zero, ← bits_mod v le_rfl]
  constructor
  · exact fun h ↦ bits_inj (Nat.mod_lt _ (Nat.two_pow_pos k)) (Nat.two_pow_pos k) h
  · intro h
    rw [h]

/-- A wide register is cut into its high part and its low part. -/
theorem bits_add (j k v : ℕ) : bits (j + k) v = bits j (v >>> k) ++ bits k v := by
  induction j with
  | zero => rw [Nat.zero_add, bits_zero_width, List.nil_append]
  | succ j ih =>
    rw [Nat.succ_add, bits, bits, ih, Nat.testBit_shiftRight, Nat.add_comm k j, List.cons_append]

/-- What is shifted in comes behind what the register held. -/
theorem bits_shiftLeft_or {j k v w : ℕ} (hw : w < 2 ^ k) :
    bits (j + k) (v <<< k ||| w) = bits j v ++ bits k w := by
  rw [bits_add]
  congr 1
  · apply bits_congr
    intro i _
    rw [Nat.testBit_shiftRight, Nat.testBit_or, Nat.testBit_shiftLeft, Nat.add_sub_cancel_left,
      Nat.testBit_lt_two_pow (hw.trans_le (Nat.pow_le_pow_right Nat.two_pos (k.le_add_right i))),
      Bool.or_false, decide_eq_true (k.le_add_right i), Bool.true_and]
  · apply bits_congr
    intro i hi
    rw [Nat.testBit_or, Nat.testBit_shiftLeft, decide_eq_false (not_le_of_gt hi), Bool.false_and,
      Bool.false_or]

/-! ## Groups of bits -/

variable {k : ℕ}

/-- The bits of a text whose letters are `k` bits each. -/
def groups (k : ℕ) (vs : List ℕ) : List Bool := vs.flatMap (bits k)

@[simp] theorem groups_nil : groups k [] = [] := rfl

@[simp] theorem groups_cons (v : ℕ) (vs : List ℕ) : groups k (v :: vs) = bits k v ++ groups k vs :=
  rfl

theorem groups_append (vs ws : List ℕ) : groups k (vs ++ ws) = groups k vs ++ groups k ws :=
  List.flatMap_append

@[simp] theorem length_groups (vs : List ℕ) : (groups k vs).length = k * vs.length := by
  induction vs with
  | nil => rfl
  | cons v vs ih =>
    rw [groups_cons, List.length_append, length_bits, ih, List.length_cons, Nat.mul_succ,
      Nat.add_comm]

/-- Letters can be read off the bits, whatever fewer than `k` bits follow. -/
theorem groups_append_inj {vs ws : List ℕ} {a b : List Bool} (hvs : ∀ v ∈ vs, v < 2 ^ k)
    (hws : ∀ v ∈ ws, v < 2 ^ k) (hlength : vs.length = ws.length)
    (h : groups k vs ++ a = groups k ws ++ b) : vs = ws ∧ a = b := by
  induction vs generalizing ws with
  | nil =>
    obtain rfl : ws = [] := List.eq_nil_of_length_eq_zero hlength.symm
    exact ⟨rfl, h⟩
  | cons v vs ih =>
    cases ws with
    | nil => exact absurd hlength (Nat.succ_ne_zero _)
    | cons w ws =>
      rw [groups_cons, groups_cons, List.append_assoc, List.append_assoc] at h
      obtain ⟨hbits, hrest⟩ := List.append_inj h (by rw [length_bits, length_bits])
      have hvw := bits_inj (hvs v List.mem_cons_self) (hws w List.mem_cons_self) hbits
      obtain ⟨hvsws, hab⟩ := ih (fun v hv ↦ hvs v (List.mem_cons_of_mem _ hv))
        (fun w hw ↦ hws w (List.mem_cons_of_mem _ hw)) (Nat.succ.inj hlength) hrest
      exact ⟨by rw [hvw, hvsws], hab⟩

end PxcCore.Lib
