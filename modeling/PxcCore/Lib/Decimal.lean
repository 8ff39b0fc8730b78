import Mathlib

/-!
# Decimal numbers

Natural numbers as ASCII digits, the highest one first.
-/

namespace PxcCore.Lib

/-- The digits of a number. -/
def decimal (n : ℕ) : List UInt8 :=
  if n = 0 then [48] else ((Nat.digits 10 n).map fun d ↦ UInt8.ofNat (48 + d)).reverse

/-- The number that digits stand for. -/
def ofDecimal (bytes : List UInt8) : ℕ := bytes.foldl (fun n c ↦ n * 10 + (c.toNat - 48)) 0

theorem toNat_digit {d : ℕ} (h : d < 10) : (UInt8.ofNat (48 + d)).toNat = 48 + d :=
  UInt8.toNat_ofNat_of_lt' (by
    rw [UInt8.size]
    omega)

theorem digit_of_mem_decimal {n : ℕ} {c : UInt8} (h : c ∈ decimal n) : 48 ≤ c ∧ c ≤ 57 := by
  rw [decimal] at h
  split_ifs at h with hn
  · rw [List.mem_singleton.1 h]
    decide
  · obtain ⟨d, hd, rfl⟩ := List.mem_map.1 (List.mem_reverse.1 h)
    have hlt : d < 10 := Nat.digits_lt_base (by norm_num) hd
    rw [UInt8.le_iff_toNat_le, UInt8.le_iff_toNat_le, toNat_digit hlt]
    show 48 ≤ 48 + d ∧ 48 + d ≤ 57
    omega

theorem decimal_ne_nil (n : ℕ) : decimal n ≠ [] := by
  rw [decimal]
  split_ifs with hn
  · exact List.cons_ne_nil _ _
  · simpa [Nat.digits_eq_nil_iff_eq_zero] using hn

/-- The digits of a positive number do not begin with a zero. -/
theorem head?_decimal {n : ℕ} (hn : n ≠ 0) : (decimal n).head? ≠ some 48 := by
  have hne : Nat.digits 10 n ≠ [] := Nat.digits_ne_nil_iff_ne_zero.2 hn
  have hlast := Nat.getLast_digit_ne_zero 10 hn
  have hlt : (Nat.digits 10 n).getLast hne < 10 :=
    Nat.digits_lt_base (by norm_num) (List.getLast_mem hne)
  rw [decimal, if_neg hn, List.head?_reverse, List.getLast?_map,
    List.getLast?_eq_some_getLast hne, Option.map_some, ne_eq, Option.some_inj,
    ← UInt8.toNat_inj, toNat_digit hlt]
  intro hzero
  have hzero : 48 + (Nat.digits 10 n).getLast hne = 48 := hzero
  omega

theorem ofDecimal_decimal (n : ℕ) : ofDecimal (decimal n) = n := by
  rw [decimal]
  split_ifs with hn
  · exact hn.symm
  · have hfold : ∀ digits : List ℕ, (∀ d ∈ digits, d < 10) →
        ofDecimal (digits.map fun d ↦ UInt8.ofNat (48 + d)).reverse = Nat.ofDigits 10 digits := by
      intro digits hdigits
      induction digits with
      | nil => rfl
      | cons d digits ih =>
        have ih := ih fun d hd ↦ hdigits d (List.mem_cons_of_mem _ hd)
        rw [ofDecimal] at ih
        rw [List.map_cons, List.reverse_cons, ofDecimal, List.foldl_append, ih, List.foldl_cons,
          List.foldl_nil, toNat_digit (hdigits d List.mem_cons_self), Nat.ofDigits_cons]
        omega
    rw [hfold _ fun d hd ↦ Nat.digits_lt_base (by norm_num) hd, Nat.ofDigits_digits]

end PxcCore.Lib
