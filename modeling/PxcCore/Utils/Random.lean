import PxcCore.Lib.Result

/-!
# Random numbers between bounds

`Random::fast`, and `fast` and `fast64` of `Random::Xorshift128plus`.  Each takes the remainder of a
random word by the number of values between the bounds, in the arithmetic of machine words.
-/

namespace PxcCore.Random

open Lib

/-! ## Definitions -/

/-- What a division can fail with. -/
inductive Fault where
  | divisionByZero
deriving DecidableEq

/-- `%` of `uint32`. -/
def mod32 (a b : UInt32) : Except Fault UInt32 :=
  if b = 0 then .error .divisionByZero else .ok (a % b)

/-- `%` of `uint64`. -/
def mod64 (a b : UInt64) : Except Fault UInt64 :=
  if b = 0 then .error .divisionByZero else .ok (a % b)

/-- `Random::fast`, for the word that `fast_uint32` returns. -/
def fast (word : UInt32) (minValue maxValue : Int32) : Except Fault Int32 := do
  let minValue :=
    if minValue = Int32.minValue ∧ maxValue = Int32.maxValue then minValue + 1 else minValue
  let rest ← mod32 word (maxValue - minValue + 1).toUInt32
  return (minValue.toUInt32 + rest).toInt32

/-- `Random::Xorshift128plus` -/
structure Xorshift128plus where
  seed₀ : UInt64
  seed₁ : UInt64
deriving DecidableEq

namespace Xorshift128plus

/-- `operator()` -/
def next (g : Xorshift128plus) : UInt64 × Xorshift128plus :=
  let x := g.seed₀
  let y := g.seed₁
  let x := x ^^^ x <<< 23
  let seed₁ := x ^^^ y ^^^ x >>> 17 ^^^ y >>> 26
  (seed₁ + y, ⟨y, seed₁⟩)

/-- `fast`, where the bounds are converted to `uint64` only after the subtraction. -/
def fast (g : Xorshift128plus) (minValue maxValue : Int32) :
    Except Fault (Int32 × Xorshift128plus) := do
  let (word, g) := g.next
  let rest ← mod64 word (maxValue - minValue + 1).toInt64.toUInt64
  return ((rest + minValue.toInt64.toUInt64).toUInt32.toInt32, g)

/-- `fast64` -/
def fast64 (g : Xorshift128plus) (minValue maxValue : Int64) :
    Except Fault (Int64 × Xorshift128plus) := do
  let (word, g) := g.next
  let rest ← mod64 word (maxValue - minValue + 1).toUInt64
  return ((rest + minValue.toUInt64).toInt64, g)

end Xorshift128plus

/-! ## Machine words between bounds -/

section Bounds

variable {w : ℕ} {lo hi r : BitVec w}

/-- A word that is at most the distance of the bounds leads from the lower one to a word between
them, without overflow. -/
theorem toInt_add_of_le (hr : (r.toNat : ℤ) ≤ hi.toInt - lo.toInt) :
    (lo + r).toInt = lo.toInt + r.toNat := by
  have hlo : -2 ^ w ≤ 2 * lo.toInt := BitVec.le_two_mul_toInt
  have hhi : 2 * hi.toInt < 2 ^ w := BitVec.two_mul_toInt_lt
  rw [BitVec.toInt_add, BitVec.toInt_eq_toNat_bmod r, Int.add_bmod_bmod]
  apply Int.bmod_eq_of_le_mul_two <;> push_cast <;> omega

theorem between_add (hr : (r.toNat : ℤ) ≤ hi.toInt - lo.toInt) :
    lo.toInt ≤ (lo + r).toInt ∧ (lo + r).toInt ≤ hi.toInt := by
  rw [toInt_add_of_le hr]
  omega

theorem width_eq (lo hi : BitVec w) :
    hi - lo + 1 = BitVec.ofInt w (hi.toInt - lo.toInt + 1) := by
  rw [BitVec.ofInt_add, sub_eq_add_neg, sub_eq_add_neg, BitVec.ofInt_add, BitVec.ofInt_neg,
    BitVec.ofInt_toInt, BitVec.ofInt_toInt]
  rfl

/-- The number of the words between bounds, which is zero for all of them. -/
theorem toNat_width (h : lo.toInt ≤ hi.toInt) :
    (hi - lo + 1).toNat = (hi.toInt - lo.toInt + 1).toNat % 2 ^ w := by
  obtain ⟨n, hn⟩ := Int.eq_ofNat_of_zero_le (show 0 ≤ hi.toInt - lo.toInt + 1 by omega)
  rw [width_eq, BitVec.toNat_ofInt, hn]
  norm_cast

/-- A remainder of a division by it, if the bounds do not hold all words, is at most their
distance. -/
theorem mod_width_le (h : lo.toInt ≤ hi.toInt) (hwidth : hi.toInt - lo.toInt + 1 < 2 ^ w) (n : ℕ) :
    (hi - lo + 1).toNat ≠ 0 ∧ ((n % (hi - lo + 1).toNat : ℕ) : ℤ) ≤ hi.toInt - lo.toInt := by
  have hsmall : (hi.toInt - lo.toInt + 1).toNat < 2 ^ w :=
    (Int.toNat_lt (by omega)).mpr (by exact_mod_cast hwidth)
  have hnat := toNat_width h
  rw [Nat.mod_eq_of_lt hsmall] at hnat
  have hlt : n % (hi - lo + 1).toNat < (hi - lo + 1).toNat := Nat.mod_lt _ (by omega)
  omega

/-- The word behind the upper bound is not between bounds that do not hold all words. -/
theorem not_between_add_one (hwidth : hi.toInt - lo.toInt + 1 < 2 ^ w) :
    ¬(lo.toInt ≤ (hi + 1#w).toInt ∧ (hi + 1#w).toInt ≤ hi.toInt) := by
  rintro ⟨hle, hge⟩
  have hdvd : (2 ^ w : ℤ) ∣ hi.toInt + 1 - (hi + 1#w).toInt := by
    have hnext : hi + 1#w = BitVec.ofInt w (hi.toInt + 1) := by
      rw [BitVec.ofInt_add, BitVec.ofInt_toInt]
      rfl
    rw [hnext, BitVec.toInt_ofInt]
    exact_mod_cast Int.dvd_self_sub_bmod
  have := Int.le_of_dvd (by omega) hdvd
  omega

theorem toNat_signExtend {v : ℕ} (h : w ≤ v) (x : BitVec w) :
    (x.signExtend v).toNat = (x.toInt % 2 ^ v).toNat := by
  have hext : x.signExtend v = BitVec.ofInt v x.toInt := by
    rw [← BitVec.toInt_signExtend_of_le h, BitVec.ofInt_toInt]
  rw [hext, BitVec.toNat_ofInt]
  norm_cast

end Bounds

/-! ## The generator -/

/-- The bits that are moved up into a word are moved out of it again. -/
theorem exists_xor_shiftLeft (y : BitVec 64) : ∃ x : BitVec 64, x ^^^ x <<< 23 = y := by
  let moved := y <<< 23 ^^^ y <<< 46
  have hmoved : (y ^^^ moved) <<< 23 = moved := by
    have hout : y <<< 69 = 0#64 := BitVec.shiftLeft_eq_zero (by decide)
    rw [BitVec.shiftLeft_xor_distrib, BitVec.shiftLeft_xor_distrib, ← BitVec.shiftLeft_add,
      ← BitVec.shiftLeft_add, hout, BitVec.xor_zero]
  exact ⟨y ^^^ moved, by rw [hmoved, xor_cancel_right]⟩

theorem exists_xor_ushiftRight (y : BitVec 64) : ∃ x : BitVec 64, x ^^^ x >>> 17 = y := by
  let moved := y >>> 17 ^^^ (y >>> 34 ^^^ y >>> 51)
  have hmoved : (y ^^^ moved) >>> 17 = moved := by
    have hout : y >>> 68 = 0#64 := BitVec.ushiftRight_eq_zero (by decide)
    rw [BitVec.ushiftRight_xor_distrib, BitVec.ushiftRight_xor_distrib,
      BitVec.ushiftRight_xor_distrib, ← BitVec.shiftRight_add, ← BitVec.shiftRight_add,
      ← BitVec.shiftRight_add, hout, BitVec.xor_zero]
  exact ⟨y ^^^ moved, by rw [hmoved, xor_cancel_right]⟩

/-- The generator returns every word, from some seeds. -/
theorem Xorshift128plus.exists_next (word : UInt64) : ∃ g : Xorshift128plus, g.next.1 = word := by
  obtain ⟨x', hx'⟩ := exists_xor_ushiftRight word.toBitVec
  obtain ⟨x, hx⟩ := exists_xor_shiftLeft x'
  refine ⟨⟨.ofBitVec x, 0⟩, UInt64.toBitVec_inj.mp ?_⟩
  rw [← hx', ← hx]
  simp [next]

/-! ## Remainders -/

theorem mod32_eq {a b : UInt32} (hb : b.toNat ≠ 0) :
    ∃ r, mod32 a b = .ok r ∧ r.toNat = a.toNat % b.toNat := by
  refine ⟨a % b, if_neg fun hzero ↦ hb ?_, UInt32.toNat_mod a b⟩
  rw [hzero]
  rfl

theorem mod64_eq {a b : UInt64} (hb : b.toNat ≠ 0) :
    ∃ r, mod64 a b = .ok r ∧ r.toNat = a.toNat % b.toNat := by
  refine ⟨a % b, if_neg fun hzero ↦ hb ?_, UInt64.toNat_mod a b⟩
  rw [hzero]
  rfl

/-! ## `Random::fast` -/

/-- Bounds that do not hold all words. -/
theorem fast_of_lt (word : UInt32) {lo hi : Int32} (hbounds : lo.toInt ≤ hi.toInt)
    (hwidth : hi.toInt - lo.toInt + 1 < 2 ^ 32) :
    ∃ r, mod32 word (hi - lo + 1).toUInt32 = .ok r ∧ lo ≤ (lo.toUInt32 + r).toInt32 ∧
      (lo.toUInt32 + r).toInt32 ≤ hi := by
  obtain ⟨hne, hle⟩ := @mod_width_le 32 lo.toBitVec hi.toBitVec hbounds hwidth word.toNat
  obtain ⟨r, hr, hrest⟩ := @mod32_eq word (hi - lo + 1).toUInt32 hne
  have hbetween := @between_add 32 lo.toBitVec hi.toBitVec r.toBitVec
    ((congrArg Nat.cast hrest).trans_le hle)
  exact ⟨r, hr, Int32.le_iff_toInt_le.mpr hbetween.1, Int32.le_iff_toInt_le.mpr hbetween.2⟩

/-- Bounds that hold all words are the least and the greatest one. -/
theorem eq_minValue_maxValue {lo hi : Int32} (h : 2 ^ 32 ≤ hi.toInt - lo.toInt + 1) :
    lo = Int32.minValue ∧ hi = Int32.maxValue := by
  have hlo := Int32.le_toInt lo
  have hhi := Int32.toInt_lt hi
  constructor
  · rw [← Int32.toInt_inj, Int32.toInt_minValue]
    omega
  · rw [← Int32.toInt_inj, Int32.toInt_maxValue]
    omega

/-- `Random::fast` leaves out the least word if the bounds hold all words. -/
theorem fast_between (word : UInt32) {lo hi : Int32} (hbounds : lo ≤ hi) :
    ∃ v, fast word lo hi = .ok v ∧ lo ≤ v ∧ v ≤ hi := by
  rw [fast]
  split_ifs with hall
  · obtain ⟨rfl, rfl⟩ := hall
    obtain ⟨r, hr, -, hge⟩ := @fast_of_lt word (Int32.minValue + 1) Int32.maxValue (by decide)
      (by decide)
    refine ⟨_, ?_, ?_, hge⟩
    · rw [hr]
      rfl
    · exact Int32.minValue_le _
  · have hwidth : hi.toInt - lo.toInt + 1 < 2 ^ 32 := by
      by_contra hge
      exact hall (eq_minValue_maxValue (not_lt.mp hge))
    obtain ⟨r, hr, hle, hge⟩ := fast_of_lt word (Int32.le_iff_toInt_le.mp hbounds) hwidth
    refine ⟨_, ?_, hle, hge⟩
    rw [hr]
    rfl

/-! ## `Xorshift128plus` -/

namespace Xorshift128plus

/-- What is converted to `int` at the end. -/
theorem toBitVec_value (r : UInt64) (lo : Int32) :
    (r + lo.toInt64.toUInt64).toUInt32.toInt32.toBitVec =
      lo.toBitVec + r.toBitVec.setWidth 32 := by
  have hlow : (lo.toBitVec.signExtend 64).setWidth 32 = lo.toBitVec := by
    ext i hi
    rw [BitVec.getElem_setWidth, BitVec.getLsbD_signExtend]
    have hwide : i < 64 := by omega
    simp [hi, hwide]
  show (r.toBitVec + lo.toBitVec.signExtend 64).setWidth 32 = _
  rw [BitVec.setWidth_add _ _ (by decide), hlow, BitVec.add_comm]

/-- The width as it is converted to `uint64`, through an `int`. -/
theorem toNat_width_of_lt {lo hi : Int32} (hbounds : lo.toInt ≤ hi.toInt)
    (hwidth : hi.toInt - lo.toInt + 1 < 2 ^ 31) :
    (hi - lo + 1).toInt64.toUInt64.toNat = (hi.toInt - lo.toInt + 1).toNat := by
  have heq : (hi - lo + 1).toBitVec = BitVec.ofInt 32 (hi.toInt - lo.toInt + 1) :=
    width_eq lo.toBitVec hi.toBitVec
  have hint : (hi - lo + 1).toBitVec.toInt = hi.toInt - lo.toInt + 1 := by
    rw [heq, BitVec.toInt_ofInt]
    apply Int.bmod_eq_of_le_mul_two <;> push_cast <;> omega
  have hext := toNat_signExtend (v := 64) (by decide) (hi - lo + 1).toBitVec
  rw [hint] at hext
  refine hext.trans ?_
  omega

/-- A width of more than half of the words is a negative `int`. -/
theorem toNat_width_of_le {lo hi : Int32} (hwidth : 2 ^ 31 ≤ hi.toInt - lo.toInt + 1)
    (hall : hi.toInt - lo.toInt + 1 < 2 ^ 32) :
    2 ^ 32 ≤ (hi - lo + 1).toInt64.toUInt64.toNat := by
  have heq : (hi - lo + 1).toBitVec = BitVec.ofInt 32 (hi.toInt - lo.toInt + 1) :=
    width_eq lo.toBitVec hi.toBitVec
  have hint : (hi - lo + 1).toBitVec.toInt = hi.toInt - lo.toInt + 1 - 2 ^ 32 := by
    have hshift : hi.toInt - lo.toInt + 1 = hi.toInt - lo.toInt + 1 - 2 ^ 32 + (2 ^ 32 : ℕ) := by
      push_cast
      ring
    rw [heq, BitVec.toInt_ofInt]
    conv_lhs => rw [hshift]
    rw [Int.add_bmod_right]
    apply Int.bmod_eq_of_le_mul_two <;> push_cast <;> omega
  have hext := toNat_signExtend (v := 64) (by decide) (hi - lo + 1).toBitVec
  rw [hint] at hext
  refine le_trans ?_ hext.ge
  omega

theorem fast_eq {g : Xorshift128plus} {lo hi : Int32} {r : UInt64}
    (hr : mod64 g.next.1 (hi - lo + 1).toInt64.toUInt64 = .ok r) :
    g.fast lo hi = .ok ((r + lo.toInt64.toUInt64).toUInt32.toInt32, g.next.2) := by
  show (mod64 g.next.1 _ >>= _) = _
  rw [hr]
  rfl

/-- At most half of the words are between the bounds. -/
theorem fast_of_lt (g : Xorshift128plus) {lo hi : Int32} (hbounds : lo.toInt ≤ hi.toInt)
    (hwidth : hi.toInt - lo.toInt + 1 < 2 ^ 31) :
    ∃ v g', g.fast lo hi = .ok (v, g') ∧ lo ≤ v ∧ v ≤ hi := by
  have hnat := toNat_width_of_lt hbounds hwidth
  obtain ⟨r, hr, hrest⟩ := @mod64_eq g.next.1 (hi - lo + 1).toInt64.toUInt64 (by omega)
  have hlt : g.next.1.toNat % (hi - lo + 1).toInt64.toUInt64.toNat <
      (hi - lo + 1).toInt64.toUInt64.toNat := Nat.mod_lt _ (by omega)
  have hlow : (r.toBitVec.setWidth 32).toNat = r.toNat := by
    rw [BitVec.toNat_setWidth, UInt64.toNat_toBitVec]
    omega
  have hbetween := @between_add 32 lo.toBitVec hi.toBitVec (r.toBitVec.setWidth 32) (by
    rw [hlow, Int32.toInt_toBitVec, Int32.toInt_toBitVec]
    omega)
  rw [← toBitVec_value] at hbetween
  exact ⟨_, _, fast_eq hr, Int32.le_iff_toInt_le.mpr hbetween.1,
    Int32.le_iff_toInt_le.mpr hbetween.2⟩

/-- More than half of the words are between the bounds: some word leads behind the upper one, or
the division fails. -/
theorem fast_of_le {lo hi : Int32} (hwidth : 2 ^ 31 ≤ hi.toInt - lo.toInt + 1) :
    ∃ g : Xorshift128plus, ¬∃ v g', g.fast lo hi = .ok (v, g') ∧ lo ≤ v ∧ v ≤ hi := by
  by_cases hall : hi.toInt - lo.toInt + 1 < 2 ^ 32
  · have hnat := toNat_width_of_le hwidth hall
    obtain ⟨g, hg⟩ := exists_next (UInt64.ofNat (hi.toInt - lo.toInt + 1).toNat)
    obtain ⟨r, hr, hrest⟩ := @mod64_eq g.next.1 (hi - lo + 1).toInt64.toUInt64 (by omega)
    have hword : r.toNat = (hi.toInt - lo.toInt + 1).toNat := by
      rw [hrest, hg, UInt64.toNat_ofNat', Nat.mod_eq_of_lt (by omega), Nat.mod_eq_of_lt (by omega)]
    have hlow : r.toBitVec.setWidth 32 = hi.toBitVec - lo.toBitVec + 1 := by
      apply BitVec.eq_of_toNat_eq
      have hnat := @toNat_width 32 lo.toBitVec hi.toBitVec (by
        rw [Int32.toInt_toBitVec, Int32.toInt_toBitVec]
        omega)
      rw [hnat, BitVec.toNat_setWidth, UInt64.toNat_toBitVec, hword, Int32.toInt_toBitVec,
        Int32.toInt_toBitVec]
    have hvalue : (r + lo.toInt64.toUInt64).toUInt32.toInt32.toBitVec = hi.toBitVec + 1#32 := by
      rw [toBitVec_value, hlow, ← add_assoc, add_sub_cancel]
      rfl
    refine ⟨g, ?_⟩
    rintro ⟨v, g', hfast, hbetween⟩
    rw [fast_eq hr, Except.ok.injEq, Prod.mk.injEq] at hfast
    have hv : v.toInt = (hi.toBitVec + 1#32).toInt := by
      rw [← hvalue, hfast.1, Int32.toInt_toBitVec]
    rw [Int32.le_iff_toInt_le, Int32.le_iff_toInt_le, hv] at hbetween
    exact not_between_add_one hall hbetween
  · obtain ⟨rfl, rfl⟩ := eq_minValue_maxValue (not_lt.mp hall)
    refine ⟨⟨0, 0⟩, ?_⟩
    rintro ⟨v, g', hfast, -⟩
    have herror : (⟨0, 0⟩ : Xorshift128plus).fast Int32.minValue Int32.maxValue =
      .error .divisionByZero := by decide
    rw [herror] at hfast
    cases hfast

/-- Some word is not between the bounds. -/
theorem fast64_of_lt (g : Xorshift128plus) {lo hi : Int64} (hbounds : lo.toInt ≤ hi.toInt)
    (hwidth : hi.toInt - lo.toInt + 1 < 2 ^ 64) :
    ∃ v g', g.fast64 lo hi = .ok (v, g') ∧ lo ≤ v ∧ v ≤ hi := by
  obtain ⟨hne, hle⟩ := @mod_width_le 64 lo.toBitVec hi.toBitVec hbounds hwidth g.next.1.toNat
  obtain ⟨r, hr, hrest⟩ := @mod64_eq g.next.1 (hi - lo + 1).toUInt64 hne
  have hbetween := @between_add 64 lo.toBitVec hi.toBitVec r.toBitVec
    ((congrArg Nat.cast hrest).trans_le hle)
  rw [BitVec.add_comm] at hbetween
  refine ⟨(r + lo.toUInt64).toInt64, g.next.2, ?_, Int64.le_iff_toInt_le.mpr hbetween.1,
    Int64.le_iff_toInt_le.mpr hbetween.2⟩
  show (mod64 g.next.1 _ >>= _) = _
  rw [hr]
  rfl

/-- All words are between the bounds, and the division fails. -/
theorem fast64_all (g : Xorshift128plus) :
    g.fast64 Int64.minValue Int64.maxValue = .error .divisionByZero := by
  have hzero : (Int64.maxValue - Int64.minValue + 1).toUInt64 = 0 := by decide
  have hmod (word : UInt64) : mod64 word 0 = .error .divisionByZero := if_pos rfl
  show (mod64 g.next.1 _ >>= _) = _
  rw [hzero, hmod]
  rfl

end Xorshift128plus

/-! ## Main result -/

/-- `Random::fast` always returns a value between the bounds.  `Xorshift128plus::fast` does so for
all seeds exactly if less than `2 ^ 31` values are between them, and `fast64` exactly if some value
is not. -/
theorem between_iff {lo hi : Int32} (hbounds : lo ≤ hi) {lo' hi' : Int64} (hbounds' : lo' ≤ hi') :
    (∀ word, ∃ v, fast word lo hi = .ok v ∧ lo ≤ v ∧ v ≤ hi) ∧
    ((∀ g : Xorshift128plus, ∃ v g', g.fast lo hi = .ok (v, g') ∧ lo ≤ v ∧ v ≤ hi) ↔
      hi.toInt - lo.toInt + 1 < 2 ^ 31) ∧
    ((∀ g : Xorshift128plus, ∃ v g', g.fast64 lo' hi' = .ok (v, g') ∧ lo' ≤ v ∧ v ≤ hi') ↔
      ¬(lo' = Int64.minValue ∧ hi' = Int64.maxValue)) := by
  refine ⟨fun word ↦ fast_between word hbounds, ⟨fun hall ↦ ?_, fun hwidth g ↦ ?_⟩,
    ⟨?_, fun hwidth g ↦ ?_⟩⟩
  · by_contra hwidth
    obtain ⟨g, hg⟩ := Xorshift128plus.fast_of_le (not_lt.mp hwidth)
    exact hg (hall g)
  · exact Xorshift128plus.fast_of_lt g (Int32.le_iff_toInt_le.mp hbounds) hwidth
  · rintro hall ⟨rfl, rfl⟩
    obtain ⟨v, g', hfast, -⟩ := hall ⟨0, 0⟩
    rw [Xorshift128plus.fast64_all] at hfast
    cases hfast
  · refine Xorshift128plus.fast64_of_lt g (Int64.le_iff_toInt_le.mp hbounds') ?_
    have hlo := Int64.le_toInt lo'
    have hhi := Int64.toInt_lt hi'
    by_contra hge
    refine hwidth ⟨?_, ?_⟩
    · rw [← Int64.toInt_inj, Int64.toInt_minValue]
      omega
    · rw [← Int64.toInt_inj, Int64.toInt_maxValue]
      omega

/-- Bounds for a die. -/
theorem between_one_six :
    (∀ word, ∃ v, fast word 1 6 = .ok v ∧ 1 ≤ v ∧ v ≤ 6) ∧
    (∀ g : Xorshift128plus, ∃ v g', g.fast 1 6 = .ok (v, g') ∧ 1 ≤ v ∧ v ≤ 6) ∧
    ∀ g : Xorshift128plus, ∃ v g', g.fast64 1 6 = .ok (v, g') ∧ 1 ≤ v ∧ v ≤ 6 := by
  have h := @between_iff 1 6 (by decide) 1 6 (by decide)
  exact ⟨h.1, h.2.1.mpr (by decide), h.2.2.mpr (by decide)⟩

/-- Both divisions fail for bounds that hold all words, and a value below both bounds is returned
for bounds that hold half of them. -/
theorem not_between :
    (⟨0, 0⟩ : Xorshift128plus).fast Int32.minValue Int32.maxValue = .error .divisionByZero ∧
    (⟨0, 0⟩ : Xorshift128plus).fast64 Int64.minValue Int64.maxValue = .error .divisionByZero ∧
    ((⟨0, 2 ^ 30⟩ : Xorshift128plus).fast (-1) 2147483646).map Prod.fst = .ok (-2147483633) := by
  decide

end PxcCore.Random
