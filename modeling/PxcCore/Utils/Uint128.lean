import PxcCore.Lib.Result

/-!
# 128-bit integers

`uint128.h`: `uint128_emulated`, which is made of two words, and `uint128_intrinsic`, which is the
type of the compiler.
-/

namespace PxcCore

open Lib

/-! ## Definitions -/

/-- `count_leading_zeroes64` -/
def countLeadingZeroes64 (x : UInt64) : ℕ := if x = 0 then 64 else 63 - x.toNat.log2

/-- `uint128_emulated` -/
@[ext] structure Uint128Emulated where
  hi : UInt64 := 0
  lo : UInt64 := 0
deriving DecidableEq

namespace Uint128Emulated

/-- `rounded_hi` -/
def roundedHi (a : Uint128Emulated) : UInt64 := a.hi + (a.lo >>> 63)

/-- `from_signed` -/
def fromSigned (x : Int64) : Uint128Emulated :=
  if x ≥ 0 then ⟨0, x.toUInt64⟩ else ⟨0xFFFFFFFFFFFFFFFF, x.toUInt64⟩

/-- `from_unsigned` -/
def fromUnsigned (x : UInt64) : Uint128Emulated := ⟨0, x⟩

/-- `add` -/
def add (a other : Uint128Emulated) : Uint128Emulated :=
  let res : Uint128Emulated := ⟨other.hi + a.hi, other.lo + a.lo⟩
  if res.lo < a.lo then { res with hi := res.hi + 1 } else res

/-- `shl` -/
def shl (a : Uint128Emulated) (cnt : ℕ) : Uint128Emulated :=
  if cnt = 0 then a
  else if cnt < 64 then
    ⟨(a.hi <<< UInt64.ofNat cnt) ||| (a.lo >>> UInt64.ofNat (64 - cnt)), a.lo <<< UInt64.ofNat cnt⟩
  else if cnt < 128 then ⟨a.lo <<< UInt64.ofNat (cnt - 64), 0⟩
  else {}

/-- `shr` -/
def shr (a : Uint128Emulated) (cnt : ℕ) : Uint128Emulated :=
  if cnt = 0 then a
  else if cnt < 64 then
    ⟨a.hi >>> UInt64.ofNat cnt, (a.lo >>> UInt64.ofNat cnt) ||| (a.hi <<< UInt64.ofNat (64 - cnt))⟩
  else if cnt < 128 then ⟨0, a.hi >>> UInt64.ofNat (cnt - 64)⟩
  else {}

/-- `mult` -/
def mult (a other : Uint128Emulated) : Uint128Emulated :=
  let aLo := a.lo &&& 0xFFFFFFFF
  let aHi := a.lo >>> 32
  let bLo := other.lo &&& 0xFFFFFFFF
  let bHi := other.lo >>> 32
  let res : Uint128Emulated := ⟨a.lo * other.hi + a.hi * other.lo + aHi * bHi, aLo * bLo⟩
  let add1 : Uint128Emulated := ⟨0, aLo * bHi⟩
  let add2 : Uint128Emulated := ⟨0, aHi * bLo⟩
  (res.add (add1.shl 32)).add (add2.shl 32)

/-- `mult(uint64)` -/
def multWord (a : Uint128Emulated) (other : UInt64) : Uint128Emulated := a.mult ⟨0, other⟩

/-- `mult_signed` -/
def multSigned (a : Uint128Emulated) (other : Int64) : Uint128Emulated := a.mult (fromSigned other)

/-- `is_zero` -/
def isZero (a : Uint128Emulated) : Bool := a.lo = 0 ∧ a.hi = 0

/-- `sub` -/
def sub (a other : Uint128Emulated) : Uint128Emulated :=
  let carry : UInt64 := if other.lo > a.lo then 1 else 0
  ⟨a.hi - other.hi - carry, a.lo - other.lo⟩

/-- `is_negative` -/
def isNegative (a : Uint128Emulated) : Bool := a.hi >>> 63 = 1

/-- `count_leading_zeroes` -/
def countLeadingZeroes (a : Uint128Emulated) : ℕ :=
  if a.hi = 0 then 64 + countLeadingZeroes64 a.lo else countLeadingZeroes64 a.hi

/-- `set_lower_bit` -/
def setLowerBit (a : Uint128Emulated) : Uint128Emulated := ⟨a.hi, a.lo ||| 1⟩

/-- `greater_or_equal` -/
def greaterOrEqual (a other : Uint128Emulated) : Bool :=
  a.hi > other.hi ∨ (a.hi = other.hi ∧ a.lo ≥ other.lo)

/-- `negate` -/
def negate (a : Uint128Emulated) : Uint128Emulated :=
  let res : Uint128Emulated := ⟨~~~a.hi, ~~~a.lo + 1⟩
  if res.lo = 0 then ⟨res.hi + 1, 0⟩ else res

/-- The loop of `divmod`, which has rounds for `i` from the number of rounds down to 0. -/
def divmodLoop (other : Uint128Emulated) :
    ℕ → Uint128Emulated → Uint128Emulated → Uint128Emulated × Uint128Emulated
  | 0, dividend, res => (res, dividend)
  | i + 1, dividend, res =>
    let sub := other.shl i
    let res := res.shl 1
    if dividend.greaterOrEqual sub then divmodLoop other i (dividend.sub sub) res.setLowerBit
    else divmodLoop other i dividend res

/-- `divmod`: the quotient and the remainder. -/
def divmod (a other : Uint128Emulated) : Except String (Uint128Emulated × Uint128Emulated) :=
  if other.isZero then .error "CHECK(!other.is_zero())"
  else
    let ctz := a.countLeadingZeroes
    let otherCtz := other.countLeadingZeroes
    if ctz > otherCtz then .ok ({}, a)
    else .ok (divmodLoop other (otherCtz - ctz + 1) a {})

/-- `div` -/
def div (a other : Uint128Emulated) : Except String Uint128Emulated := Prod.fst <$> a.divmod other

/-- `mod` -/
def mod (a other : Uint128Emulated) : Except String Uint128Emulated := Prod.snd <$> a.divmod other

/-- `divmod_signed` -/
def divmodSigned (a : Uint128Emulated) (y : Int64) : Except String (Int64 × Int64) := do
  if y = 0 then throw "CHECK(y != 0)"
  let xSgn := a.isNegative
  let ySgn : Bool := y < 0
  let x := if xSgn then a.negate else a
  let uy := if (fromSigned y).isNegative then (fromSigned y).negate else fromSigned y
  let (tQuot, tMod) ← x.divmod uy
  let quot := tQuot.lo.toInt64
  let rem := tMod.lo.toInt64
  return (if xSgn ≠ ySgn then -quot else quot, if xSgn then -rem else rem)

end Uint128Emulated

/-- `uint128_intrinsic` -/
@[ext] structure Uint128Intrinsic where
  value : BitVec 128
deriving DecidableEq

namespace Uint128Intrinsic

/-- `uint128_intrinsic(hi, lo)` -/
def ofWords (hi lo : UInt64) : Uint128Intrinsic :=
  ⟨(hi.toBitVec.setWidth 128 <<< 64) ||| lo.toBitVec.setWidth 128⟩

/-- `from_signed` -/
def fromSigned (x : Int64) : Uint128Intrinsic := ⟨x.toBitVec.signExtend 128⟩

/-- `from_unsigned` -/
def fromUnsigned (x : UInt64) : Uint128Intrinsic := ⟨x.toBitVec.setWidth 128⟩

/-- `hi` -/
def hi (a : Uint128Intrinsic) : UInt64 := ⟨(a.value >>> 64).setWidth 64⟩

/-- `lo` -/
def lo (a : Uint128Intrinsic) : UInt64 := ⟨(a.value &&& 0xFFFFFFFFFFFFFFFF).setWidth 64⟩

/-- `rounded_hi` -/
def roundedHi (a : Uint128Intrinsic) : UInt64 :=
  ⟨((a.value + ((1 : UInt64) <<< 63).toBitVec.setWidth 128) >>> 64).setWidth 64⟩

/-- `add` -/
def add (a other : Uint128Intrinsic) : Uint128Intrinsic := ⟨a.value + other.value⟩

/-- `sub` -/
def sub (a other : Uint128Intrinsic) : Uint128Intrinsic := ⟨a.value - other.value⟩

/-- `shl` -/
def shl (a : Uint128Intrinsic) (cnt : ℕ) : Uint128Intrinsic :=
  if cnt ≥ 128 then ⟨0⟩ else ⟨a.value <<< cnt⟩

/-- `shr` -/
def shr (a : Uint128Intrinsic) (cnt : ℕ) : Uint128Intrinsic :=
  if cnt ≥ 128 then ⟨0⟩ else ⟨a.value >>> cnt⟩

/-- `mult` -/
def mult (a other : Uint128Intrinsic) : Uint128Intrinsic := ⟨a.value * other.value⟩

/-- `mult(uint64)` -/
def multWord (a : Uint128Intrinsic) (other : UInt64) : Uint128Intrinsic :=
  ⟨a.value * other.toBitVec.setWidth 128⟩

/-- `mult_signed` -/
def multSigned (a : Uint128Intrinsic) (other : Int64) : Uint128Intrinsic :=
  ⟨a.value * other.toBitVec.signExtend 128⟩

/-- `is_zero` -/
def isZero (a : Uint128Intrinsic) : Bool := a.value = 0

/-- `divmod` -/
def divmod (a other : Uint128Intrinsic) : Except String (Uint128Intrinsic × Uint128Intrinsic) :=
  if other.isZero then .error "CHECK(!other.is_zero())"
  else .ok (⟨a.value / other.value⟩, ⟨a.value % other.value⟩)

/-- `div` -/
def div (a other : Uint128Intrinsic) : Except String Uint128Intrinsic :=
  if other.isZero then .error "CHECK(!other.is_zero())" else .ok ⟨a.value / other.value⟩

/-- `mod` -/
def mod (a other : Uint128Intrinsic) : Except String Uint128Intrinsic :=
  if other.isZero then .error "CHECK(!other.is_zero())" else .ok ⟨a.value % other.value⟩

/-- `divmod_signed`. The compiler leaves the division of the least value by -1 undefined; here it
wraps. -/
def divmodSigned (a : Uint128Intrinsic) (y : Int64) : Except String (Int64 × Int64) :=
  if y = 0 then .error "CHECK(y != 0)"
  else .ok (⟨⟨(a.value.sdiv (y.toBitVec.signExtend 128)).setWidth 64⟩⟩,
    ⟨⟨(a.value.srem (y.toBitVec.signExtend 128)).setWidth 64⟩⟩)

end Uint128Intrinsic

namespace Uint128Emulated

variable {a b other dividend res : Uint128Emulated}

/-! ## The number -/

/-- The number that two words make up. -/
@[irreducible] def toNat (a : Uint128Emulated) : ℕ := a.hi.toNat * 2 ^ 64 + a.lo.toNat

/-- The same words in the other type. -/
def toIntrinsic (a : Uint128Emulated) : Uint128Intrinsic := .ofWords a.hi a.lo

theorem toNat_zero : toNat {} = 0 := by
  rw [toNat, UInt64.toNat_zero, Nat.zero_mul]

theorem toNat_lt (a : Uint128Emulated) : a.toNat < 2 ^ 128 := by
  have hlo := a.lo.toNat_lt
  have hhi := a.hi.toNat_lt
  rw [toNat]
  omega

theorem toNat_toIntrinsic (a : Uint128Emulated) : a.toIntrinsic.value.toNat = a.toNat := by
  have hlo := a.lo.toNat_lt
  have hhi := a.hi.toNat_lt
  rw [toIntrinsic, Uint128Intrinsic.ofWords, toNat, BitVec.toNat_or, BitVec.toNat_shiftLeft]
  simp only [BitVec.toNat_setWidth, UInt64.toNat_toBitVec]
  rw [Nat.mod_eq_of_lt (show a.hi.toNat < 2 ^ 128 by omega),
    Nat.mod_eq_of_lt (show a.lo.toNat < 2 ^ 128 by omega), Nat.mod_eq_of_lt,
    ← Nat.shiftLeft_add_eq_or_of_lt hlo, Nat.shiftLeft_eq]
  rw [Nat.shiftLeft_eq]
  omega

/-- Two numbers are the same if their values are. -/
theorem toIntrinsic_eq {x : Uint128Intrinsic} (h : a.toNat = x.value.toNat) :
    a.toIntrinsic = x := by
  apply Uint128Intrinsic.ext
  apply BitVec.eq_of_toNat_eq
  rw [toNat_toIntrinsic, h]

/-! ## Shifts -/

theorem toBitVec_shiftLeft (x : UInt64) {cnt : ℕ} (h : cnt < 64) :
    (x <<< UInt64.ofNat cnt).toBitVec = x.toBitVec <<< cnt := by
  rw [UInt64.toBitVec_shiftLeft, BitVec.shiftLeft_eq']
  congr 1
  have : ((UInt64.ofNat cnt).toBitVec % 64).toNat = cnt := by
    simp; omega
  simpa using this

theorem toBitVec_shiftRight (x : UInt64) {cnt : ℕ} (h : cnt < 64) :
    (x >>> UInt64.ofNat cnt).toBitVec = x.toBitVec >>> cnt := by
  rw [UInt64.toBitVec_shiftRight, BitVec.ushiftRight_eq']
  congr 1
  have : ((UInt64.ofNat cnt).toBitVec % 64).toNat = cnt := by
    simp; omega
  simpa using this

theorem getLsbD_value (a : Uint128Emulated) (i : ℕ) : a.toIntrinsic.value.getLsbD i =
    if i < 64 then a.lo.toBitVec.getLsbD i else a.hi.toBitVec.getLsbD (i - 64) := by
  simp only [toIntrinsic, Uint128Intrinsic.ofWords, BitVec.getLsbD_or, BitVec.getLsbD_shiftLeft,
    BitVec.getLsbD_setWidth]
  split_ifs with h
  · simp [h]; omega
  · rw [BitVec.getLsbD_of_ge a.lo.toBitVec i (by omega)]
    by_cases h' : i < 128
    · simp [h, h']; omega
    · rw [BitVec.getLsbD_of_ge a.hi.toBitVec (i - 64) (by omega)]
      simp

theorem getLsbD_shl (a : Uint128Intrinsic) {cnt i : ℕ} (hcnt : cnt < 128) (hi : i < 128) :
    (a.shl cnt).value.getLsbD i = (!decide (i < cnt) && a.value.getLsbD (i - cnt)) := by
  rw [Uint128Intrinsic.shl, if_neg (by omega), BitVec.getLsbD_shiftLeft]
  simp [hi]

theorem getLsbD_shr (a : Uint128Intrinsic) {cnt i : ℕ} (hcnt : cnt < 128) :
    (a.shr cnt).value.getLsbD i = a.value.getLsbD (cnt + i) := by
  rw [Uint128Intrinsic.shr, if_neg (by omega), BitVec.getLsbD_ushiftRight]

theorem ext_bits {a b : Uint128Intrinsic} (h : ∀ i < 128, a.value.getLsbD i = b.value.getLsbD i) :
    a = b := by
  apply Uint128Intrinsic.ext
  apply BitVec.eq_of_getLsbD_eq
  exact h

theorem shl_toIntrinsic (a : Uint128Emulated) (cnt : ℕ) :
    (a.shl cnt).toIntrinsic = a.toIntrinsic.shl cnt := by
  rw [shl]
  split_ifs with h0 h1 h2
  · subst h0
    simp [Uint128Intrinsic.shl]
  · refine ext_bits fun i hi ↦ ?_
    rw [getLsbD_shl _ (by omega) hi, getLsbD_value, getLsbD_value, UInt64.toBitVec_or,
      toBitVec_shiftLeft _ h1, toBitVec_shiftLeft _ h1, toBitVec_shiftRight _ (by omega)]
    simp only [BitVec.getLsbD_or, BitVec.getLsbD_shiftLeft, BitVec.getLsbD_ushiftRight]
    by_cases hi' : i < 64
    · rw [if_pos hi', if_pos (by omega)]
      simp [hi']
    · rw [if_neg hi', show 64 - cnt + (i - 64) = i - cnt by omega,
        show i - 64 - cnt = i - cnt - 64 by omega]
      by_cases hcnt : i - cnt < 64
      · rw [if_pos hcnt]
        simp [show i - 64 < cnt by omega, show ¬ i < cnt by omega]
      · rw [if_neg hcnt, BitVec.getLsbD_of_ge a.lo.toBitVec _ (by omega)]
        simp [show ¬ i - 64 < cnt by omega, show ¬ i < cnt by omega, show i - 64 < 64 by omega]
  · refine ext_bits fun i hi ↦ ?_
    rw [getLsbD_shl _ h2 hi, getLsbD_value, getLsbD_value, toBitVec_shiftLeft _ (by omega),
      BitVec.getLsbD_shiftLeft]
    by_cases hi' : i < 64
    · simp [hi', show i < cnt by omega]
    · rw [if_neg hi', show i - 64 - (cnt - 64) = i - cnt by omega, if_pos (by omega)]
      simp [show (i - 64 < cnt - 64) = (i < cnt) by simp; omega, show i - 64 < 64 by omega]
  · rw [Uint128Intrinsic.shl, if_pos (by omega)]
    rfl

theorem shr_toIntrinsic (a : Uint128Emulated) (cnt : ℕ) :
    (a.shr cnt).toIntrinsic = a.toIntrinsic.shr cnt := by
  rw [shr]
  split_ifs with h0 h1 h2
  · subst h0
    simp [Uint128Intrinsic.shr]
  · refine ext_bits fun i hi ↦ ?_
    rw [getLsbD_shr _ (by omega), getLsbD_value, getLsbD_value, UInt64.toBitVec_or,
      toBitVec_shiftLeft _ (by omega), toBitVec_shiftRight _ h1, toBitVec_shiftRight _ h1]
    simp only [BitVec.getLsbD_or, BitVec.getLsbD_shiftLeft, BitVec.getLsbD_ushiftRight]
    by_cases hi' : i < 64
    · rw [if_pos hi', show i - (64 - cnt) = cnt + i - 64 by omega]
      by_cases hcnt : cnt + i < 64
      · rw [if_pos hcnt]
        simp [show i < 64 - cnt by omega]
      · rw [if_neg hcnt, BitVec.getLsbD_of_ge a.lo.toBitVec _ (by omega)]
        simp [hi', show ¬ i < 64 - cnt by omega]
    · rw [if_neg hi', if_neg (by omega), show cnt + (i - 64) = cnt + i - 64 by omega]
  · refine ext_bits fun i hi ↦ ?_
    rw [getLsbD_shr _ h2, getLsbD_value, getLsbD_value, toBitVec_shiftRight _ (by omega),
      BitVec.getLsbD_ushiftRight, if_neg (by omega : ¬ cnt + i < 64)]
    by_cases hi' : i < 64
    · rw [if_pos hi', show cnt - 64 + i = cnt + i - 64 by omega]
    · rw [if_neg hi', BitVec.getLsbD_of_ge a.hi.toBitVec _ (by omega)]
      exact BitVec.getLsbD_zero
  · rw [Uint128Intrinsic.shr, if_pos (by omega)]
    rfl

theorem toNat_shl (a : Uint128Emulated) (cnt : ℕ) :
    (a.shl cnt).toNat = a.toNat * 2 ^ cnt % 2 ^ 128 := by
  rw [← toNat_toIntrinsic, shl_toIntrinsic, Uint128Intrinsic.shl]
  split_ifs with h
  · obtain ⟨k, rfl⟩ := Nat.exists_eq_add_of_le h
    rw [pow_add, ← mul_assoc, mul_right_comm, Nat.mul_mod_left]
    rfl
  · rw [BitVec.toNat_shiftLeft, toNat_toIntrinsic, Nat.shiftLeft_eq]

theorem toNat_shr (a : Uint128Emulated) (cnt : ℕ) : (a.shr cnt).toNat = a.toNat / 2 ^ cnt := by
  rw [← toNat_toIntrinsic, shr_toIntrinsic, Uint128Intrinsic.shr]
  split_ifs with h
  · rw [Nat.div_eq_of_lt (a.toNat_lt.trans_le (Nat.pow_le_pow_right Nat.two_pos h))]
    rfl
  · rw [BitVec.toNat_ushiftRight, toNat_toIntrinsic, Nat.shiftRight_eq_div_pow]

/-! ## Sums, differences and products -/

theorem toNat_add (a b : Uint128Emulated) : (a.add b).toNat = (a.toNat + b.toNat) % 2 ^ 128 := by
  have ha := a.lo.toNat_lt
  have hb := b.lo.toNat_lt
  rw [add]
  simp only [UInt64.lt_iff_toNat_lt, UInt64.toNat_add]
  split_ifs with h
  · simp only [toNat, UInt64.toNat_add, UInt64.toNat_one]
    omega
  · simp only [toNat, UInt64.toNat_add]
    omega

theorem toNat_sub (a b : Uint128Emulated) :
    (a.sub b).toNat = (2 ^ 128 - b.toNat + a.toNat) % 2 ^ 128 := by
  have ha := a.lo.toNat_lt
  have hb := b.lo.toNat_lt
  have ha' := a.hi.toNat_lt
  have hb' := b.hi.toNat_lt
  rw [sub]
  simp only [gt_iff_lt, UInt64.lt_iff_toNat_lt]
  split_ifs with h
  · simp only [toNat, UInt64.toNat_sub, UInt64.toNat_one]
    omega
  · simp only [toNat, UInt64.toNat_sub, UInt64.toNat_zero]
    omega

theorem toNat_and_mask (x : UInt64) : (x &&& 0xFFFFFFFF).toNat = x.toNat % 2 ^ 32 := by
  rw [UInt64.toNat_and]
  exact Nat.and_two_pow_sub_one_eq_mod _ 32

theorem toNat_shiftRight_32 (x : UInt64) : (x >>> 32).toNat = x.toNat / 2 ^ 32 := by
  rw [UInt64.toNat_shiftRight]
  exact Nat.shiftRight_eq_div_pow _ _

/-- A product of two halves fits in a word. -/
theorem toNat_mul_halves {x y : UInt64} (hx : x.toNat < 2 ^ 32) (hy : y.toNat < 2 ^ 32) :
    (x * y).toNat = x.toNat * y.toNat := by
  rw [UInt64.toNat_mul, Nat.mod_eq_of_lt]
  calc x.toNat * y.toNat < 2 ^ 32 * 2 ^ 32 := Nat.mul_lt_mul'' hx hy
    _ = 2 ^ 64 := by norm_num

/-- The high word of the first partial sum only matters modulo its size. -/
theorem toNat_modEq (hi lo : UInt64) {x : ℕ} (hhi : hi.toNat = x % 2 ^ 64) :
    toNat ⟨hi, lo⟩ ≡ x * 2 ^ 64 + lo.toNat [MOD 2 ^ 128] := by
  rw [toNat, hhi]
  refine Nat.ModEq.add_right _ ?_
  rw [Nat.ModEq, ← Nat.mul_mod_mul_right]
  exact Nat.mod_mod _ _

theorem toNat_add_modEq (a b : Uint128Emulated) :
    (a.add b).toNat ≡ a.toNat + b.toNat [MOD 2 ^ 128] := by
  rw [toNat_add]
  exact Nat.mod_mod _ _

theorem toNat_shl_32_modEq (x : UInt64) :
    toNat (shl ⟨0, x⟩ 32) ≡ x.toNat * 2 ^ 32 [MOD 2 ^ 128] := by
  rw [toNat_shl, toNat, UInt64.toNat_zero, Nat.zero_mul, Nat.zero_add]
  exact Nat.mod_mod _ _

theorem toNat_mult (a b : Uint128Emulated) : (a.mult b).toNat = a.toNat * b.toNat % 2 ^ 128 := by
  obtain ⟨aLo, haLo⟩ : ∃ aLo, aLo = a.lo &&& 0xFFFFFFFF := ⟨_, rfl⟩
  obtain ⟨aHi, haHi⟩ : ∃ aHi, aHi = a.lo >>> 32 := ⟨_, rfl⟩
  obtain ⟨bLo, hbLo⟩ : ∃ bLo, bLo = b.lo &&& 0xFFFFFFFF := ⟨_, rfl⟩
  obtain ⟨bHi, hbHi⟩ : ∃ bHi, bHi = b.lo >>> 32 := ⟨_, rfl⟩
  have halves (x : UInt64) : (x &&& 0xFFFFFFFF).toNat < 2 ^ 32 ∧ (x >>> 32).toNat < 2 ^ 32 ∧
      x.toNat = (x >>> 32).toNat * 2 ^ 32 + (x &&& 0xFFFFFFFF).toNat := by
    have hx := x.toNat_lt
    rw [toNat_and_mask, toNat_shiftRight_32]
    omega
  obtain ⟨haLo', haHi', ha⟩ := halves a.lo
  obtain ⟨hbLo', hbHi', hb⟩ := halves b.lo
  rw [← haLo] at haLo' ha
  rw [← haHi] at haHi' ha
  rw [← hbLo] at hbLo' hb
  rw [← hbHi] at hbHi' hb
  let high := a.lo.toNat * b.hi.toNat + a.hi.toNat * b.lo.toNat + aHi.toNat * bHi.toNat
  have hhigh : (a.lo * b.hi + a.hi * b.lo + aHi * bHi).toNat = high % 2 ^ 64 := by
    simp only [UInt64.toNat_add, UInt64.toNat_mul, high, Nat.add_mod, Nat.mod_mod]
  have hmult : (a.mult b).toNat ≡ a.toNat * b.toNat [MOD 2 ^ 128] := by
    calc (a.mult b).toNat
        = ((add ⟨a.lo * b.hi + a.hi * b.lo + aHi * bHi, aLo * bLo⟩
            (shl ⟨0, aLo * bHi⟩ 32)).add (shl ⟨0, aHi * bLo⟩ 32)).toNat := by
          rw [mult, ← haLo, ← haHi, ← hbLo, ← hbHi]
      _ ≡ high * 2 ^ 64 + (aLo * bLo).toNat + (aLo * bHi).toNat * 2 ^ 32 +
            (aHi * bLo).toNat * 2 ^ 32 [MOD 2 ^ 128] :=
          (toNat_add_modEq _ _).trans (((toNat_add_modEq _ _).trans
            ((toNat_modEq _ _ hhigh).add (toNat_shl_32_modEq _))).add (toNat_shl_32_modEq _))
      _ ≡ high * 2 ^ 64 + (aLo * bLo).toNat + (aLo * bHi).toNat * 2 ^ 32 +
            (aHi * bLo).toNat * 2 ^ 32 + a.hi.toNat * b.hi.toNat * 2 ^ 128 [MOD 2 ^ 128] :=
          (Nat.add_mul_mod_self_right _ _ _).symm
      _ = a.toNat * b.toNat := by
          rw [toNat_mul_halves haLo' hbLo', toNat_mul_halves haLo' hbHi',
            toNat_mul_halves haHi' hbLo', toNat, toNat]
          simp only [high]
          rw [ha, hb]
          ring
  exact (Nat.mod_eq_of_lt (toNat_lt _)).symm.trans hmult

/-! ## Division -/

theorem isZero_iff : a.isZero = true ↔ a.toNat = 0 := by
  rw [isZero, decide_eq_true_iff, ← UInt64.toNat_inj, ← UInt64.toNat_inj, toNat]
  show a.lo.toNat = 0 ∧ a.hi.toNat = 0 ↔ _
  omega

theorem greaterOrEqual_iff : a.greaterOrEqual b = true ↔ b.toNat ≤ a.toNat := by
  have ha := a.lo.toNat_lt
  have hb := b.lo.toNat_lt
  rw [greaterOrEqual, decide_eq_true_iff, gt_iff_lt, ge_iff_le, UInt64.lt_iff_toNat_lt,
    UInt64.le_iff_toNat_le, ← UInt64.toNat_inj, toNat, toNat]
  omega

/-- The lower bit of an even number is set. -/
theorem toNat_setLowerBit (h : a.toNat % 2 = 0) : a.setLowerBit.toNat = a.toNat + 1 := by
  have hlo : a.lo.toNat % 2 = 0 := by
    rw [toNat] at h
    omega
  have hor : (a.lo ||| 1).toNat = a.lo.toNat + 1 := by
    have hshift : a.lo.toNat = (a.lo.toNat / 2) <<< 1 := by
      rw [Nat.shiftLeft_eq]
      omega
    rw [UInt64.toNat_or, hshift, UInt64.toNat_one, ← Nat.shiftLeft_add_eq_or_of_lt (by norm_num)]
  rw [setLowerBit, toNat, hor, toNat, Nat.add_assoc]

theorem countLeadingZeroes64_spec (x : UInt64) :
    countLeadingZeroes64 x ≤ 64 ∧ x.toNat < 2 ^ (64 - countLeadingZeroes64 x) ∧
      (x ≠ 0 → countLeadingZeroes64 x ≤ 63 ∧ 2 ^ (63 - countLeadingZeroes64 x) ≤ x.toNat) := by
  rw [countLeadingZeroes64]
  split_ifs with hzero
  · subst hzero
    simp
  · have hne : x.toNat ≠ 0 := by
      rw [← UInt64.toNat_zero]
      exact UInt64.toNat_inj.ne.2 hzero
    have hlog : x.toNat.log2 < 64 := (Nat.log2_lt hne).2 x.toNat_lt
    refine ⟨by omega, ?_, fun _ ↦ ⟨by omega, ?_⟩⟩
    · rw [show 64 - (63 - x.toNat.log2) = x.toNat.log2 + 1 by omega]
      exact Nat.lt_log2_self
    · rw [show 63 - (63 - x.toNat.log2) = x.toNat.log2 by omega]
      exact Nat.log2_self_le hne

/-- A number lies between two powers of two. -/
theorem countLeadingZeroes_spec (a : Uint128Emulated) :
    a.countLeadingZeroes ≤ 128 ∧ a.toNat < 2 ^ (128 - a.countLeadingZeroes) ∧
      (a.toNat ≠ 0 → a.countLeadingZeroes ≤ 127 ∧ 2 ^ (127 - a.countLeadingZeroes) ≤ a.toNat) := by
  rw [countLeadingZeroes, toNat]
  split_ifs with hzero
  · obtain ⟨hle, hlt, hge⟩ := countLeadingZeroes64_spec a.lo
    rw [hzero, UInt64.toNat_zero, Nat.zero_mul, Nat.zero_add]
    refine ⟨by omega, ?_, fun hne ↦ ?_⟩
    · rwa [show 128 - (64 + countLeadingZeroes64 a.lo) = 64 - countLeadingZeroes64 a.lo by omega]
    · obtain ⟨hle', hge⟩ := hge fun hlo ↦ hne (hlo ▸ UInt64.toNat_zero)
      refine ⟨by omega, ?_⟩
      rwa [show 127 - (64 + countLeadingZeroes64 a.lo) = 63 - countLeadingZeroes64 a.lo by omega]
  · have hlo := a.lo.toNat_lt
    obtain ⟨-, hlt, hge⟩ := countLeadingZeroes64_spec a.hi
    obtain ⟨hle, hge⟩ := hge hzero
    refine ⟨by omega, ?_, fun _ ↦ ⟨by omega, ?_⟩⟩
    · rw [show 128 - countLeadingZeroes64 a.hi = 64 - countLeadingZeroes64 a.hi + 64 by omega,
        pow_add]
      calc a.hi.toNat * 2 ^ 64 + a.lo.toNat < a.hi.toNat * 2 ^ 64 + 2 ^ 64 :=
            Nat.add_lt_add_left hlo _
        _ = (a.hi.toNat + 1) * 2 ^ 64 := (Nat.add_one_mul _ _).symm
        _ ≤ 2 ^ (64 - countLeadingZeroes64 a.hi) * 2 ^ 64 := Nat.mul_le_mul_right _ hlt
    · rw [show 127 - countLeadingZeroes64 a.hi = 63 - countLeadingZeroes64 a.hi + 64 by omega,
        pow_add]
      calc 2 ^ (63 - countLeadingZeroes64 a.hi) * 2 ^ 64 ≤ a.hi.toNat * 2 ^ 64 :=
            Nat.mul_le_mul_right _ hge
        _ ≤ a.hi.toNat * 2 ^ 64 + a.lo.toNat := Nat.le_add_right _ _

/-- The rounds that are left divide what is left. -/
theorem divmodLoop_spec (n : ℕ) (hdividend : dividend.toNat < other.toNat * 2 ^ n)
    (hother : 0 < n → other.toNat * 2 ^ (n - 1) < 2 ^ 128)
    (hres : (res.toNat + 1) * 2 ^ n ≤ 2 ^ 128) :
    (divmodLoop other n dividend res).1.toNat =
        res.toNat * 2 ^ n + dividend.toNat / other.toNat ∧
      (divmodLoop other n dividend res).2.toNat = dividend.toNat % other.toNat := by
  induction n generalizing dividend res with
  | zero =>
    rw [pow_zero, mul_one] at hdividend
    simp only [divmodLoop]
    rw [Nat.div_eq_of_lt hdividend, Nat.mod_eq_of_lt hdividend, pow_zero, mul_one, add_zero]
    exact And.intro rfl rfl
  | succ n ih =>
    have hpow : 2 ^ (n + 1) = 2 * 2 ^ n := pow_succ' 2 n
    have hpos : 0 < 2 ^ n := Nat.two_pow_pos n
    have hother₀ : other.toNat * 2 ^ n < 2 ^ 128 := hother n.succ_pos
    have hsub : (other.shl n).toNat = other.toNat * 2 ^ n := by
      rw [toNat_shl, Nat.mod_eq_of_lt hother₀]
    have hother' : 0 < n → other.toNat * 2 ^ (n - 1) < 2 ^ 128 := fun _ ↦
      lt_of_le_of_lt (Nat.mul_le_mul_left _ (Nat.pow_le_pow_right Nat.two_pos (Nat.sub_le n 1)))
        hother₀
    have hres' : (res.toNat * 2 + 1 + 1) * 2 ^ n ≤ 2 ^ 128 := by
      rw [hpow] at hres
      linarith
    have hlt : res.toNat * 2 + 2 ≤ 2 ^ 128 := (Nat.le_mul_of_pos_right _ hpos).trans hres'
    have hshl : (res.shl 1).toNat = res.toNat * 2 := by
      rw [toNat_shl, pow_one, Nat.mod_eq_of_lt (by omega)]
    rw [hpow, mul_left_comm] at hdividend
    simp only [divmodLoop]
    by_cases hge : dividend.greaterOrEqual (other.shl n) = true
    · rw [if_pos hge]
      rw [greaterOrEqual_iff, hsub] at hge
      have hdiff : (dividend.sub (other.shl n)).toNat = dividend.toNat - other.toNat * 2 ^ n := by
        have := dividend.toNat_lt
        rw [toNat_sub, hsub]
        omega
      have hbit : (res.shl 1).setLowerBit.toNat = res.toNat * 2 + 1 := by
        rw [toNat_setLowerBit (by omega), hshl]
      have hlt' : (dividend.sub (other.shl n)).toNat < other.toNat * 2 ^ n := by
        rw [hdiff]
        omega
      obtain ⟨hquot, hrem⟩ := ih hlt' hother' (by rwa [hbit])
      have hother₁ : 0 < other.toNat := by
        by_contra hzero
        rw [Nat.eq_zero_of_not_pos hzero, Nat.zero_mul, Nat.mul_zero] at hdividend
        exact Nat.not_lt_zero _ hdividend
      have hle : 2 ^ n ≤ dividend.toNat / other.toNat := by
        rwa [Nat.le_div_iff_mul_le hother₁, mul_comm]
      rw [hquot, hrem, hbit, hdiff, Nat.sub_mul_div _ _ _ , Nat.sub_mul_mod hge, hpow]
      refine ⟨?_, rfl⟩
      rw [add_mul, one_mul, mul_assoc, add_assoc, Nat.add_sub_cancel' hle]
    · rw [if_neg hge]
      rw [greaterOrEqual_iff, hsub, not_le] at hge
      have hres'' : ((res.shl 1).toNat + 1) * 2 ^ n ≤ 2 ^ 128 := by
        rw [hshl]
        exact (Nat.mul_le_mul_right _ (Nat.le_succ _)).trans hres'
      obtain ⟨hquot, hrem⟩ := ih hge hother' hres''
      rw [hquot, hrem, hshl, hpow, mul_assoc]
      exact And.intro rfl rfl

/-- `divmod` divides. -/
theorem divmod_spec (hother : other.isZero = false) : ∃ q r, a.divmod other = .ok (q, r) ∧
    q.toNat = a.toNat / other.toNat ∧ r.toNat = a.toNat % other.toNat := by
  have hne : other.toNat ≠ 0 := by
    intro hzero
    rw [isZero_iff.2 hzero] at hother
    exact absurd hother (by simp)
  obtain ⟨hle, hlt, -⟩ := countLeadingZeroes_spec a
  obtain ⟨-, hlt', hge⟩ := countLeadingZeroes_spec other
  obtain ⟨hle', hge⟩ := hge hne
  simp only [divmod, hother, Bool.false_eq_true, if_false]
  by_cases hctz : a.countLeadingZeroes > other.countLeadingZeroes
  · have hsmall : a.toNat < other.toNat := by
      calc a.toNat < 2 ^ (128 - a.countLeadingZeroes) := hlt
        _ ≤ 2 ^ (127 - other.countLeadingZeroes) := Nat.pow_le_pow_right Nat.two_pos (by omega)
        _ ≤ other.toNat := hge
    rw [if_pos hctz]
    refine ⟨_, _, rfl, ?_, ?_⟩
    · rw [Nat.div_eq_of_lt hsmall, toNat_zero]
    · rw [Nat.mod_eq_of_lt hsmall]
  · rw [if_neg hctz]
    obtain ⟨shift, hshift⟩ : ∃ shift, other.countLeadingZeroes = a.countLeadingZeroes + shift :=
      Nat.exists_eq_add_of_le (not_lt.1 hctz)
    rw [hshift, Nat.add_sub_cancel_left]
    have hdividend : a.toNat < other.toNat * 2 ^ (shift + 1) := by
      calc a.toNat < 2 ^ (128 - a.countLeadingZeroes) := hlt
        _ = 2 ^ (127 - other.countLeadingZeroes) * 2 ^ (shift + 1) := by
            rw [← pow_add]
            congr 1
            omega
        _ ≤ other.toNat * 2 ^ (shift + 1) := Nat.mul_le_mul_right _ hge
    have hother' : other.toNat * 2 ^ shift < 2 ^ 128 := by
      calc other.toNat * 2 ^ shift
          < 2 ^ (128 - other.countLeadingZeroes) * 2 ^ shift :=
            Nat.mul_lt_mul_of_pos_right hlt' (Nat.two_pow_pos _)
        _ = 2 ^ (128 - a.countLeadingZeroes) := by
            rw [← pow_add]
            congr 1
            omega
        _ ≤ 2 ^ 128 := Nat.pow_le_pow_right Nat.two_pos (Nat.sub_le _ _)
    have hres : (toNat {} + 1) * 2 ^ (shift + 1) ≤ 2 ^ 128 := by
      rw [toNat_zero, zero_add, one_mul]
      exact Nat.pow_le_pow_right Nat.two_pos (by omega)
    obtain ⟨hquot, hrem⟩ := divmodLoop_spec (shift + 1) hdividend (fun _ ↦ hother') hres
    rw [toNat_zero, zero_mul, zero_add] at hquot
    exact ⟨_, _, rfl, hquot, hrem⟩

/-! ## Signs -/

/-- The number in two's complement. -/
@[irreducible] def toInt (a : Uint128Emulated) : ℤ :=
  if a.isNegative then a.toNat - 2 ^ 128 else a.toNat

variable {y : Int64}

theorem isNegative_iff : a.isNegative = true ↔ 2 ^ 127 ≤ a.toNat := by
  have hlo := a.lo.toNat_lt
  have hhi := a.hi.toNat_lt
  have hshift : (a.hi >>> 63).toNat = a.hi.toNat / 2 ^ 63 := by
    rw [UInt64.toNat_shiftRight]
    exact Nat.shiftRight_eq_div_pow _ _
  rw [isNegative, decide_eq_true_iff, ← UInt64.toNat_inj, hshift, UInt64.toNat_one, toNat]
  omega

theorem toInt_toIntrinsic (a : Uint128Emulated) : a.toIntrinsic.value.toInt = a.toInt := by
  rw [BitVec.toInt_eq_toNat_cond, toNat_toIntrinsic, toInt]
  simp only [isNegative_iff]
  split_ifs with h₁ h₂ h₂
  · omega
  · rfl
  · norm_num
  · omega

theorem isNegative_iff_toInt : a.isNegative = true ↔ a.toInt < 0 := by
  have hlt := a.toNat_lt
  rw [toInt]
  split_ifs with h
  · exact iff_of_true h (by omega)
  · exact iff_of_false h (by omega)

theorem toNat_negate (a : Uint128Emulated) :
    a.negate.toNat = (2 ^ 128 - a.toNat) % 2 ^ 128 := by
  have hlo := a.lo.toNat_lt
  have hhi := a.hi.toNat_lt
  rw [negate]
  simp only [← UInt64.toNat_inj, UInt64.toNat_zero, toNat]
  split_ifs with h
  · simp only [UInt64.toNat_add, UInt64.toNat_not, UInt64.toNat_one, UInt64.toNat_zero,
      UInt64.size] at h ⊢
    omega
  · simp only [UInt64.toNat_add, UInt64.toNat_not, UInt64.toNat_one, UInt64.size] at h ⊢
    omega

/-- The absolute value, as `divmod_signed` makes it. -/
theorem toNat_abs (a : Uint128Emulated) :
    (if a.isNegative then a.negate else a).toNat = a.toInt.natAbs := by
  have hlt := a.toNat_lt
  rw [toInt]
  split_ifs with h
  · rw [isNegative_iff] at h
    rw [toNat_negate]
    omega
  · omega

/-- The bits of a word in two's complement. -/
theorem toNat_toUInt64 (y : Int64) :
    (y.toUInt64.toNat : ℤ) = if y.toInt < 0 then y.toInt + 2 ^ 64 else y.toInt := by
  have hlt : y.toBitVec.toNat < 2 ^ 64 := y.toBitVec.isLt
  have hword : y.toInt = _ := BitVec.toInt_eq_toNat_cond y.toBitVec
  show (y.toBitVec.toNat : ℤ) = _
  split_ifs at hword ⊢ with h₁ h₂ h₂ <;> push_cast at hword <;> omega

theorem toInt_fromSigned (y : Int64) : (fromSigned y).toInt = y.toInt := by
  have hword := toNat_toUInt64 y
  have hlt := y.toUInt64.toNat_lt
  have hmin := Int64.le_toInt y
  have hmax := Int64.toInt_lt y
  rw [toInt, fromSigned]
  simp only [isNegative_iff, ge_iff_le, Int64.le_iff_toInt_le, Int64.toInt_zero]
  split_ifs at hword ⊢ with h₁ h₂ h₃ h₄ h₅ h₆ <;> rw [toNat] at * <;>
    simp only [UInt64.toNat_ofNat] at * <;> omega

theorem toNat_fromSigned (y : Int64) : ((fromSigned y).toNat : ℤ) = y.toInt % 2 ^ 128 := by
  have hlt := (fromSigned y).toNat_lt
  rw [← toInt_fromSigned, toInt]
  split_ifs with h
  · omega
  · omega

theorem natAbs_div_eq_tdiv (x y : ℤ) : x.tdiv y =
    if decide (x < 0) ≠ decide (y < 0) then -((x.natAbs / y.natAbs : ℕ) : ℤ)
      else ((x.natAbs / y.natAbs : ℕ) : ℤ) := by
  rcases lt_or_ge x 0 with hx | hx <;> rcases lt_or_ge y 0 with hy | hy
  · rw [if_neg (by simp [hx, hy])]
    obtain ⟨n, rfl⟩ := Int.exists_eq_neg_ofNat hx.le
    obtain ⟨m, rfl⟩ := Int.exists_eq_neg_ofNat hy.le
    simp [Int.neg_tdiv, Int.tdiv_neg]
  · rw [if_pos (by simp [hx, hy])]
    obtain ⟨n, rfl⟩ := Int.exists_eq_neg_ofNat hx.le
    obtain ⟨m, rfl⟩ := Int.eq_ofNat_of_zero_le hy
    simp [Int.neg_tdiv]
  · rw [if_pos (by simp [hx, hy])]
    obtain ⟨n, rfl⟩ := Int.eq_ofNat_of_zero_le hx
    obtain ⟨m, rfl⟩ := Int.exists_eq_neg_ofNat hy.le
    simp [Int.tdiv_neg]
  · rw [if_neg (by simp [not_lt.2 hx, not_lt.2 hy])]
    obtain ⟨n, rfl⟩ := Int.eq_ofNat_of_zero_le hx
    obtain ⟨m, rfl⟩ := Int.eq_ofNat_of_zero_le hy
    simp

theorem natAbs_mod_eq_tmod (x y : ℤ) : x.tmod y =
    if x < 0 then -((x.natAbs % y.natAbs : ℕ) : ℤ) else ((x.natAbs % y.natAbs : ℕ) : ℤ) := by
  obtain ⟨m, hm⟩ : ∃ m : ℕ, m = y.natAbs := ⟨_, rfl⟩
  have habs : x.tmod y = x.tmod m := by
    rcases Int.natAbs_eq y with h | h
    · rw [h, hm]
    · rw [h, Int.tmod_neg, hm]
  rw [habs, ← hm]
  split_ifs with hx
  · obtain ⟨n, rfl⟩ := Int.exists_eq_neg_ofNat hx.le
    rw [Int.neg_tmod, Int.natAbs_neg, Int.natAbs_natCast, Int.ofNat_tmod]
  · obtain ⟨n, rfl⟩ := Int.eq_ofNat_of_zero_le (not_lt.1 hx)
    rw [Int.natAbs_natCast, Int.ofNat_tmod]

/-- A lower word whose sign may be changed. -/
theorem toInt_lo_sign (a : Uint128Emulated) (neg : Prop) [Decidable neg] :
    (if neg then -a.lo.toInt64 else a.lo.toInt64).toInt =
      (if neg then -(a.toNat : ℤ) else (a.toNat : ℤ)).bmod (2 ^ 64) := by
  have hlo : a.lo.toInt64.toInt = (a.toNat : ℤ).bmod (2 ^ 64) := by
    have hword : a.lo.toInt64.toInt = (a.lo.toNat : ℤ).bmod (2 ^ 64) :=
      BitVec.toInt_eq_toNat_bmod _
    have hmod : (a.lo.toNat : ℤ) = (a.toNat : ℤ) % (2 ^ 64 : ℕ) := by
      have hlt := a.lo.toNat_lt
      rw [toNat]
      push_cast
      omega
    rw [hword, hmod, Int.emod_bmod]
  split_ifs with h
  · rw [Int64.toInt_neg, hlo, Int.bmod_neg_bmod]
  · exact hlo

/-- `divmod_signed` divides towards zero. -/
theorem divmodSigned_spec (a : Uint128Emulated) (hy : y ≠ 0) :
    ∃ q r, a.divmodSigned y = .ok (q, r) ∧ q.toInt = (a.toInt.tdiv y.toInt).bmod (2 ^ 64) ∧
      r.toInt = (a.toInt.tmod y.toInt).bmod (2 ^ 64) := by
  have hne : y.toInt ≠ 0 := fun h ↦ hy (Int64.toInt_inj.1 h)
  have hx := toNat_abs a
  have huy := toNat_abs (fromSigned y)
  rw [toInt_fromSigned] at huy
  obtain ⟨q, r, hdivmod, hq, hr⟩ := @divmod_spec (if a.isNegative then a.negate else a)
    (if (fromSigned y).isNegative then (fromSigned y).negate else fromSigned y) (by
      rw [Bool.eq_false_iff, ne_eq, isZero_iff, huy]
      exact Int.natAbs_ne_zero.2 hne)
  have hxSgn : a.isNegative = decide (a.toInt < 0) := by
    rw [Bool.eq_iff_iff, isNegative_iff_toInt, decide_eq_true_iff]
  have hySgn : decide (y < 0) = decide (y.toInt < 0) := by
    rw [decide_eq_decide, Int64.lt_iff_toInt_lt, Int64.toInt_zero]
  rw [hx, huy] at hq hr
  simp only [divmodSigned, if_neg hy, hdivmod, pure_eq_ok, ok_bind]
  refine ⟨_, _, rfl, ?_, ?_⟩
  · rw [toInt_lo_sign, natAbs_div_eq_tdiv, hxSgn, hySgn, hq]
  · rw [toInt_lo_sign, natAbs_mod_eq_tmod, hxSgn, hr]
    simp only [decide_eq_true_eq]

/-! ## The type of the compiler -/

theorem add_toIntrinsic (a b : Uint128Emulated) :
    (a.add b).toIntrinsic = a.toIntrinsic.add b.toIntrinsic := by
  apply toIntrinsic_eq
  rw [toNat_add, Uint128Intrinsic.add, BitVec.toNat_add, toNat_toIntrinsic, toNat_toIntrinsic]

theorem sub_toIntrinsic (a b : Uint128Emulated) :
    (a.sub b).toIntrinsic = a.toIntrinsic.sub b.toIntrinsic := by
  apply toIntrinsic_eq
  rw [toNat_sub, Uint128Intrinsic.sub, BitVec.toNat_sub, toNat_toIntrinsic, toNat_toIntrinsic]

theorem mult_toIntrinsic (a b : Uint128Emulated) :
    (a.mult b).toIntrinsic = a.toIntrinsic.mult b.toIntrinsic := by
  apply toIntrinsic_eq
  rw [toNat_mult, Uint128Intrinsic.mult, BitVec.toNat_mul, toNat_toIntrinsic, toNat_toIntrinsic]

theorem toNat_fromUnsigned (x : UInt64) : toNat ⟨0, x⟩ = x.toNat := by
  rw [toNat, UInt64.toNat_zero, Nat.zero_mul, Nat.zero_add]

theorem fromUnsigned_toIntrinsic (x : UInt64) :
    (fromUnsigned x).toIntrinsic = .fromUnsigned x := by
  have hx := x.toNat_lt
  apply toIntrinsic_eq
  rw [fromUnsigned, toNat_fromUnsigned, Uint128Intrinsic.fromUnsigned, BitVec.toNat_setWidth,
    UInt64.toNat_toBitVec, Nat.mod_eq_of_lt (hx.trans (by norm_num))]

theorem fromSigned_toIntrinsic (x : Int64) : (fromSigned x).toIntrinsic = .fromSigned x := by
  apply Uint128Intrinsic.ext
  apply BitVec.eq_of_toInt_eq
  rw [toInt_toIntrinsic, toInt_fromSigned, Uint128Intrinsic.fromSigned,
    BitVec.toInt_signExtend_of_le (by norm_num)]
  rfl

theorem isZero_toIntrinsic (a : Uint128Emulated) : a.toIntrinsic.isZero = a.isZero := by
  rw [Bool.eq_iff_iff, isZero_iff, Uint128Intrinsic.isZero, decide_eq_true_iff,
    ← toNat_toIntrinsic, ← BitVec.toNat_inj]
  rfl

theorem divmod_toIntrinsic (a b : Uint128Emulated) :
    Prod.map toIntrinsic toIntrinsic <$> a.divmod b =
      a.toIntrinsic.divmod b.toIntrinsic := by
  rw [Uint128Intrinsic.divmod, isZero_toIntrinsic]
  by_cases hzero : b.isZero = true
  · rw [divmod, if_pos hzero, if_pos hzero]
    rfl
  · obtain ⟨q, r, hdivmod, hq, hr⟩ := @divmod_spec a b (Bool.eq_false_iff.2 hzero)
    rw [if_neg hzero, hdivmod]
    show Except.ok (q.toIntrinsic, r.toIntrinsic) = _
    congr 2
    · apply toIntrinsic_eq
      rw [hq, BitVec.toNat_udiv, toNat_toIntrinsic, toNat_toIntrinsic]
    · apply toIntrinsic_eq
      rw [hr, BitVec.toNat_umod, toNat_toIntrinsic, toNat_toIntrinsic]

theorem div_toIntrinsic (a b : Uint128Emulated) :
    toIntrinsic <$> a.div b = a.toIntrinsic.div b.toIntrinsic := by
  have hdivmod := congrArg (Prod.fst <$> ·) (divmod_toIntrinsic a b)
  simp only [Functor.map_map, Prod.map_fst] at hdivmod
  rw [div, Functor.map_map, hdivmod, Uint128Intrinsic.divmod, Uint128Intrinsic.div]
  split_ifs with hzero
  · rfl
  · rfl

theorem mod_toIntrinsic (a b : Uint128Emulated) :
    toIntrinsic <$> a.mod b = a.toIntrinsic.mod b.toIntrinsic := by
  have hdivmod := congrArg (Prod.snd <$> ·) (divmod_toIntrinsic a b)
  simp only [Functor.map_map, Prod.map_snd] at hdivmod
  rw [mod, Functor.map_map, hdivmod, Uint128Intrinsic.divmod, Uint128Intrinsic.mod]
  split_ifs with hzero
  · rfl
  · rfl

theorem divmodSigned_toIntrinsic (a : Uint128Emulated) (y : Int64) :
    a.divmodSigned y = a.toIntrinsic.divmodSigned y := by
  by_cases hy : y = 0
  · rw [divmodSigned, Uint128Intrinsic.divmodSigned, if_pos hy, if_pos hy]
    rfl
  · obtain ⟨q, r, hdivmod, hq, hr⟩ := divmodSigned_spec a hy
    have hy128 : (y.toBitVec.signExtend 128).toInt = y.toInt :=
      BitVec.toInt_signExtend_of_le (by norm_num)
    have hlo (x : BitVec 128) : (⟨⟨x.setWidth 64⟩⟩ : Int64).toInt = x.toInt.bmod (2 ^ 64) := by
      show (x.setWidth 64).toInt = _
      rw [BitVec.toInt_setWidth, BitVec.toInt_eq_toNat_bmod, Int.bmod_bmod_of_dvd]
      exact pow_dvd_pow 2 (by norm_num)
    rw [hdivmod, Uint128Intrinsic.divmodSigned, if_neg hy]
    congr 2
    · rw [← Int64.toInt_inj, hq, hlo, BitVec.toInt_sdiv, Int.bmod_bmod_of_dvd, toInt_toIntrinsic,
        hy128]
      exact pow_dvd_pow 2 (by norm_num)
    · rw [← Int64.toInt_inj, hr, hlo, BitVec.toInt_srem, toInt_toIntrinsic, hy128]

/-- A word that is cut out. -/
theorem toNat_setWidth (x : BitVec 128) : UInt64.toNat ⟨x.setWidth 64⟩ = x.toNat % 2 ^ 64 :=
  BitVec.toNat_setWidth 64 x

theorem toNat_roundedHi (a : Uint128Emulated) :
    a.roundedHi.toNat = (a.toNat + 2 ^ 63) % 2 ^ 128 / 2 ^ 64 := by
  have hlo := a.lo.toNat_lt
  have hhi := a.hi.toNat_lt
  have hshift : (a.lo >>> 63).toNat = a.lo.toNat / 2 ^ 63 := by
    rw [UInt64.toNat_shiftRight]
    exact Nat.shiftRight_eq_div_pow _ _
  rw [roundedHi, UInt64.toNat_add, hshift, toNat]
  omega

theorem roundedHi_toIntrinsic (a : Uint128Emulated) :
    a.toIntrinsic.roundedHi = a.roundedHi := by
  rw [← UInt64.toNat_inj, toNat_roundedHi, Uint128Intrinsic.roundedHi]
  have hhalf : (((1 : UInt64) <<< 63).toBitVec.setWidth 128).toNat = 2 ^ 63 := by decide
  rw [toNat_setWidth, BitVec.toNat_ushiftRight, BitVec.toNat_add, toNat_toIntrinsic,
    Nat.shiftRight_eq_div_pow, hhalf, Nat.mod_eq_of_lt]
  omega

/-! ## Main result -/

/-- The operations are arithmetic modulo the size of the type. -/
structure Exact (a : Uint128Emulated) : Prop where
  add : ∀ b, (a.add b).toNat = (a.toNat + b.toNat) % 2 ^ 128
  sub : ∀ b, ((a.sub b).toNat : ℤ) = (a.toNat - b.toNat) % 2 ^ 128
  mult : ∀ b, (a.mult b).toNat = a.toNat * b.toNat % 2 ^ 128
  multWord : ∀ x, (a.multWord x).toNat = a.toNat * x.toNat % 2 ^ 128
  multSigned : ∀ x, ((a.multSigned x).toNat : ℤ) = a.toNat * x.toInt % 2 ^ 128
  shl : ∀ cnt, (a.shl cnt).toNat = a.toNat * 2 ^ cnt % 2 ^ 128
  shr : ∀ cnt, (a.shr cnt).toNat = a.toNat / 2 ^ cnt
  divmod : ∀ b : Uint128Emulated, b.toNat ≠ 0 → ∃ q r, a.divmod b = .ok (q, r) ∧
    q.toNat = a.toNat / b.toNat ∧ r.toNat = a.toNat % b.toNat ∧ r.toNat < b.toNat
  divmodSigned : ∀ y : Int64, y ≠ 0 → ∃ q r, a.divmodSigned y = .ok (q, r) ∧
    q.toInt = (a.toInt.tdiv y.toInt).bmod (2 ^ 64) ∧
    r.toInt = (a.toInt.tmod y.toInt).bmod (2 ^ 64)
  roundedHi : a.roundedHi.toNat = (a.toNat + 2 ^ 63) % 2 ^ 128 / 2 ^ 64

/-- The operations do what the type of the compiler does. -/
structure Agrees (a : Uint128Emulated) : Prop where
  hi : a.toIntrinsic.hi = a.hi
  lo : a.toIntrinsic.lo = a.lo
  add : ∀ b, (a.add b).toIntrinsic = a.toIntrinsic.add b.toIntrinsic
  sub : ∀ b, (a.sub b).toIntrinsic = a.toIntrinsic.sub b.toIntrinsic
  mult : ∀ b, (a.mult b).toIntrinsic = a.toIntrinsic.mult b.toIntrinsic
  multWord : ∀ x, (a.multWord x).toIntrinsic = a.toIntrinsic.multWord x
  multSigned : ∀ x, (a.multSigned x).toIntrinsic = a.toIntrinsic.multSigned x
  shl : ∀ cnt, (a.shl cnt).toIntrinsic = a.toIntrinsic.shl cnt
  shr : ∀ cnt, (a.shr cnt).toIntrinsic = a.toIntrinsic.shr cnt
  divmod : ∀ b, Prod.map toIntrinsic toIntrinsic <$> a.divmod b =
    a.toIntrinsic.divmod b.toIntrinsic
  div : ∀ b, toIntrinsic <$> a.div b = a.toIntrinsic.div b.toIntrinsic
  mod : ∀ b, toIntrinsic <$> a.mod b = a.toIntrinsic.mod b.toIntrinsic
  divmodSigned : ∀ y, a.divmodSigned y = a.toIntrinsic.divmodSigned y
  roundedHi : a.toIntrinsic.roundedHi = a.roundedHi

theorem operations_exact (a : Uint128Emulated) : a.Exact where
  add := toNat_add a
  sub b := by
    have hb := b.toNat_lt
    rw [toNat_sub]
    omega
  mult := toNat_mult a
  multWord x := by
    rw [multWord, toNat_mult, toNat_fromUnsigned]
  multSigned x := by
    have hsize : ((2 ^ 128 : ℕ) : ℤ) = 2 ^ 128 := by norm_num
    rw [multSigned, toNat_mult, Int.natCast_mod, Nat.cast_mul, toNat_fromSigned, hsize,
      Int.mul_emod, Int.emod_emod_of_dvd _ dvd_rfl, ← Int.mul_emod]
  shl := toNat_shl a
  shr := toNat_shr a
  divmod b hb := by
    obtain ⟨q, r, hdivmod, hq, hr⟩ := @divmod_spec a b (by
      rwa [Bool.eq_false_iff, ne_eq, isZero_iff])
    exact ⟨q, r, hdivmod, hq, hr, hr ▸ Nat.mod_lt _ (Nat.pos_of_ne_zero hb)⟩
  divmodSigned y hy := divmodSigned_spec a hy
  roundedHi := toNat_roundedHi a

theorem hi_toIntrinsic (a : Uint128Emulated) : a.toIntrinsic.hi = a.hi := by
  have hlo := a.lo.toNat_lt
  have hhi := a.hi.toNat_lt
  rw [← UInt64.toNat_inj, Uint128Intrinsic.hi]
  rw [toNat_setWidth, BitVec.toNat_ushiftRight, toNat_toIntrinsic,
    Nat.shiftRight_eq_div_pow, toNat]
  omega

theorem lo_toIntrinsic (a : Uint128Emulated) : a.toIntrinsic.lo = a.lo := by
  have hlo := a.lo.toNat_lt
  have hmask : (0xFFFFFFFFFFFFFFFF : BitVec 128).toNat = 2 ^ 64 - 1 := by decide
  rw [← UInt64.toNat_inj, Uint128Intrinsic.lo]
  rw [toNat_setWidth, BitVec.toNat_and, toNat_toIntrinsic, hmask,
    Nat.and_two_pow_sub_one_eq_mod, toNat]
  omega

theorem operations_agree (a : Uint128Emulated) : a.Agrees where
  hi := hi_toIntrinsic a
  lo := lo_toIntrinsic a
  add := add_toIntrinsic a
  sub := sub_toIntrinsic a
  mult := mult_toIntrinsic a
  multWord x := by
    rw [multWord, mult_toIntrinsic]
    exact congrArg a.toIntrinsic.mult (fromUnsigned_toIntrinsic x)
  multSigned x := by
    rw [multSigned, mult_toIntrinsic, fromSigned_toIntrinsic]
    rfl
  shl := shl_toIntrinsic a
  shr := shr_toIntrinsic a
  divmod := divmod_toIntrinsic a
  div := div_toIntrinsic a
  mod := mod_toIntrinsic a
  divmodSigned := divmodSigned_toIntrinsic a
  roundedHi := roundedHi_toIntrinsic a

/-- The emulated type is exact, and so agrees with the type of the compiler. -/
theorem exact_and_agrees (a : Uint128Emulated) : a.Exact ∧ a.Agrees :=
  And.intro a.operations_exact a.operations_agree

end Uint128Emulated

end PxcCore
