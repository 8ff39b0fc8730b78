import PxcCore.Utils.HttpUrl
import PxcCore.Utils.Utf8.Check

/-!
# Integers as text

`to_integer` and `to_integer_safe` of `misc.h` for every integer type, and the printers of
`StringBuilder.cpp` that `to_integer_safe` compares with.
-/

namespace PxcCore.ToInteger

open Lib
open Json (chr quote)

/-! ## Definitions -/

/-- A signed or unsigned integer type. -/
structure IntegerType where
  isSigned : Bool
  width : ℕ
  width_pos : 0 < width

namespace IntegerType

/-- `std::numeric_limits<T>::max()` -/
def max (T : IntegerType) : ℕ := if T.isSigned then 2 ^ (T.width - 1) - 1 else 2 ^ T.width - 1

/-- `std::numeric_limits<T>::min()` -/
def min (T : IntegerType) : ℤ := if T.isSigned then -2 ^ (T.width - 1) else 0

/-- The values of a type. -/
def InRange (T : IntegerType) (v : ℤ) : Prop := T.min ≤ v ∧ v ≤ T.max

end IntegerType

/-- The loop over the digits, in the unsigned type of the same width. -/
def digitsValue (width : ℕ) (digits : List UInt8) : ℕ :=
  digits.foldl (fun integerValue c ↦
    (integerValue * 10 + (c.toNat - (chr '0').toNat)) % 2 ^ width) 0

/-- `to_integer` -/
def toInteger (T : IntegerType) (str : List UInt8) : ℤ :=
  if T.isSigned then
    let isNegative : Bool := str.head? = some (chr '-')
    let digits := (if isNegative then str.tail else str).takeWhile isDigit
    let integerValue := digitsValue T.width digits
    if integerValue > T.max then
      -- `~integer_value + 1`
      let integerValue := (2 ^ T.width - 1 - integerValue + 1) % 2 ^ T.width
      let isNegative := !isNegative
      if integerValue > T.max then T.min
      else if isNegative then -(integerValue : ℤ) else integerValue
    else if isNegative then -(integerValue : ℤ) else integerValue
  else digitsValue T.width (str.takeWhile isDigit)

/-- The loop of `print_uint` that writes the digits, the last one first. -/
def printDigits (x : ℕ) : List UInt8 :=
  UInt8.ofNat (48 + x % 10) :: if x / 10 > 0 then printDigits (x / 10) else []
termination_by x
decreasing_by omega

/-- `print_uint` -/
def printUint (x : ℕ) : List UInt8 :=
  if x < 100 then
    if x < 10 then [UInt8.ofNat (48 + x)]
    else [UInt8.ofNat (48 + x / 10), UInt8.ofNat (48 + x % 10)]
  else (printDigits x).reverse

/-- `CHECK(current_ptr[-1] != '9')` and `current_ptr[-1]++` -/
def incrementLast (printed : List UInt8) : Option (List UInt8) :=
  if printed.getLast? = some (chr '9') then none
  else some (printed.dropLast ++ [printed.getLastD 0 + 1])

/-- `print_int` in a type of `width` bits, unless its `CHECK` fails. -/
def printInt (width : ℕ) (x : ℤ) : Option (List UInt8) :=
  if x < 0 then
    if x = -2 ^ (width - 1) then (printInt width (x + 1)).bind incrementLast
    else some (chr '-' :: printUint x.natAbs)
  else some (printUint x.natAbs)
termination_by x.natAbs
decreasing_by omega

/-- `StringBuilder::operator<<`: what is narrower than an `int` is printed as one. -/
def printInteger (T : IntegerType) (x : ℤ) : Option (List UInt8) :=
  if T.isSigned then printInt (max T.width 32) x
  else if T.width = 16 then printInt 32 x
  else some (printUint x.natAbs)

/-- `get_to_integer_safe_error` -/
def getToIntegerSafeError (str : List UInt8) : List UInt8 :=
  let errorMessage := "Can't parse as an integer string \"".toList.map chr ++ str ++ [quote]
  if Utf8.checkUtf8 errorMessage ≠ .ok true then
    "Strings must be encoded in UTF-8".toList.map chr
  else errorMessage

/-- `to_integer_safe`, which stops if the `CHECK` of the printer fails. -/
def toIntegerSafe (T : IntegerType) (str : List UInt8) : Option (Except (List UInt8) ℤ) := do
  let res := toInteger T str
  let printed ← printInteger T res
  return if printed ≠ str then .error (getToIntegerSafeError str) else .ok res

/-! ## Printing -/

/-- The decimal text of an integer. -/
def decimalText (v : ℤ) : List UInt8 :=
  if v < 0 then chr '-' :: decimal v.natAbs else decimal v.natAbs

theorem decimal_of_pos {x : ℕ} (hx : 0 < x) :
    decimal x = ((Nat.digits 10 x).map fun d ↦ UInt8.ofNat (48 + d)).reverse := if_neg hx.ne'

theorem printDigits_eq {x : ℕ} (hx : 0 < x) :
    printDigits x = (Nat.digits 10 x).map fun d ↦ UInt8.ofNat (48 + d) := by
  induction x using printDigits.induct with
  | case1 x ih =>
    rw [printDigits, Nat.digits_def' (by norm_num) hx, List.map_cons]
    split_ifs with h
    · rw [ih h h]
    · have hzero : x / 10 = 0 := by omega
      rw [hzero]
      rfl

theorem printUint_eq_decimal (x : ℕ) : printUint x = decimal x := by
  rw [printUint]
  split_ifs with hhundred hten
  · rcases Nat.eq_zero_or_pos x with rfl | hx
    · rfl
    · rw [decimal_of_pos hx, Nat.digits_of_lt 10 x hx.ne' hten]
      rfl
  · have hdiv : 0 < x / 10 := by omega
    rw [decimal_of_pos (by omega), Nat.digits_def' (by norm_num) (by omega),
      Nat.digits_of_lt 10 (x / 10) hdiv.ne' (by omega)]
    rfl
  · rw [printDigits_eq (by omega), decimal_of_pos (by omega)]

/-- The last digit of a number, and the number of the others. -/
theorem decimal_eq_append (n : ℕ) : decimal n =
    (if n < 10 then [] else decimal (n / 10)) ++ [UInt8.ofNat (48 + n % 10)] := by
  rcases Nat.eq_zero_or_pos n with rfl | hn
  · rfl
  · rw [decimal_of_pos hn, Nat.digits_def' (by norm_num) hn, List.map_cons, List.reverse_cons]
    split_ifs with hten
    · rw [Nat.div_eq_of_lt hten]
      rfl
    · rw [decimal_of_pos (by omega)]

/-- Counting up a last digit that is not a nine. -/
theorem incrementLast_decimal {n : ℕ} (hn : n % 10 ≠ 9) (pre : List UInt8) :
    incrementLast (pre ++ decimal n) = some (pre ++ decimal (n + 1)) := by
  have hdiv : (n + 1) / 10 = n / 10 := by omega
  have hmod : (n + 1) % 10 = n % 10 + 1 := by omega
  have hlt : n + 1 < 10 ↔ n < 10 := by omega
  have hne : UInt8.ofNat (48 + n % 10) ≠ chr '9' := by
    rw [ne_eq, ← UInt8.toNat_inj, toNat_digit (Nat.mod_lt n (by omega))]
    change 48 + n % 10 ≠ 57
    omega
  have hsucc : UInt8.ofNat (48 + n % 10) + 1 = UInt8.ofNat (48 + (n % 10 + 1)) := by
    rw [← Nat.add_assoc]
    exact (UInt8.ofNat_add (48 + n % 10) 1).symm
  rw [decimal_eq_append n, decimal_eq_append (n + 1), hdiv, hmod, incrementLast,
    ← List.append_assoc, ← List.append_assoc, List.getLast?_concat, List.dropLast_concat,
    List.getLastD_concat, hsucc, if_neg fun h ↦ hne (Option.some.inj h)]
  simp only [hlt]

/-- No power of two ends with a zero, so the minimum is printed. -/
theorem two_pow_sub_one_mod (k : ℕ) : (2 ^ k - 1) % 10 ≠ 9 := by
  intro h
  have hpos : 0 < 2 ^ k := Nat.two_pow_pos k
  have hdvd : 5 ∣ 2 ^ k := by omega
  have := Nat.Prime.dvd_of_dvd_pow (by norm_num) hdvd
  omega

theorem printInt_eq {width : ℕ} (hwidth : 1 < width) {x : ℤ} :
    printInt width x = some (decimalText x) := by
  have hnonneg : ∀ x : ℤ, ¬x < 0 → printInt width x = some (decimalText x) := by
    intro x hx
    rw [printInt, if_neg hx, printUint_eq_decimal, decimalText, if_neg hx]
  have hneg : ∀ x : ℤ, x < 0 → x ≠ -2 ^ (width - 1) → printInt width x = some (decimalText x) := by
    intro x hx hmin
    rw [printInt, if_pos hx, if_neg hmin, printUint_eq_decimal, decimalText, if_pos hx]
  by_cases hx : x < 0
  · by_cases hmin : x = -2 ^ (width - 1)
    · have htwo : 2 ≤ 2 ^ (width - 1) := Nat.le_self_pow (by omega) 2
      have hcast : x = -((2 ^ (width - 1) : ℕ) : ℤ) := by
        rw [hmin, Nat.cast_pow]
        rfl
      have hnext : x + 1 < 0 := by omega
      have habs : (x + 1).natAbs = 2 ^ (width - 1) - 1 := by omega
      have habs' : x.natAbs = 2 ^ (width - 1) - 1 + 1 := by omega
      rw [printInt, if_pos hx, if_pos hmin, hneg _ hnext (by omega), Option.bind_some, decimalText,
        if_pos hnext, decimalText, if_pos hx, habs, habs', ← List.singleton_append,
        incrementLast_decimal (two_pow_sub_one_mod _)]
      rfl
    · exact hneg x hx hmin
  · exact hnonneg x hx

/-- Every type is printed in decimal. -/
theorem printInteger_eq (T : IntegerType) {v : ℤ} (hv : T.min ≤ v) :
    printInteger T v = some (decimalText v) := by
  rw [printInteger]
  split_ifs with hsigned hwidth
  · exact printInt_eq (lt_max_of_lt_right (by omega))
  · exact printInt_eq (by omega)
  · have hnonneg : ¬v < 0 := by
      rw [IntegerType.min, if_neg hsigned] at hv
      omega
    rw [printUint_eq_decimal, decimalText, if_neg hnonneg]

theorem decimal_inj {n k : ℕ} (h : decimal n = decimal k) : n = k := by
  rw [← ofDecimal_decimal n, h, ofDecimal_decimal]

theorem head?_decimal_ne (n : ℕ) : (decimal n).head? ≠ some (chr '-') := by
  intro h
  exact absurd (digit_of_mem_decimal (List.mem_of_mem_head? h)) (by decide)

theorem decimalText_inj {v w : ℤ} (h : decimalText v = decimalText w) : v = w := by
  rw [decimalText, decimalText] at h
  split_ifs at h with hv hw hw
  · have := decimal_inj (List.cons.inj h).2
    omega
  · exact absurd (congrArg List.head? h).symm (head?_decimal_ne _)
  · exact absurd (congrArg List.head? h) (head?_decimal_ne _)
  · have := decimal_inj h
    omega

/-! ## Parsing -/

variable {T : IntegerType} {v : ℤ} {n : ℕ}

/-- Wrapping around at every digit or once at the end. -/
theorem digitsValue_eq (width : ℕ) (digits : List UInt8) :
    digitsValue width digits = ofDecimal digits % 2 ^ width := by
  have hfold : ∀ a, digits.foldl (fun integerValue c ↦
      (integerValue * 10 + (c.toNat - (chr '0').toNat)) % 2 ^ width) (a % 2 ^ width) =
        (digits.foldl (fun n c ↦ n * 10 + (c.toNat - 48)) a) % 2 ^ width := by
    induction digits with
    | nil => exact fun _ ↦ rfl
    | cons c digits ih =>
      intro a
      have hstep : (a % 2 ^ width * 10 + (c.toNat - (chr '0').toNat)) % 2 ^ width =
          (a * 10 + (c.toNat - 48)) % 2 ^ width := by
        change (_ + (c.toNat - 48)) % 2 ^ width = _
        rw [Nat.add_mod, Nat.mod_mul_mod, ← Nat.add_mod]
      rw [List.foldl_cons, List.foldl_cons, hstep, ih]
  have hzero := hfold 0
  rwa [Nat.zero_mod] at hzero

theorem isDigit_of_mem_decimal {c : UInt8} (hc : c ∈ decimal n) : isDigit c = true :=
  decide_eq_true (digit_of_mem_decimal hc)

theorem takeWhile_decimal (n : ℕ) : (decimal n).takeWhile isDigit = decimal n :=
  List.takeWhile_eq_self_iff.2 fun _ hc ↦ isDigit_of_mem_decimal hc

theorem digitsValue_decimal (width n : ℕ) : digitsValue width (decimal n) = n % 2 ^ width := by
  rw [digitsValue_eq, ofDecimal_decimal]

theorem two_pow_width (T : IntegerType) : 2 ^ T.width = 2 * 2 ^ (T.width - 1) := by
  rw [← Nat.pow_succ', Nat.succ_eq_add_one, Nat.sub_add_cancel T.width_pos]

/-- A signed type has one more negative value than positive ones. -/
theorem inRange_iff_of_signed (hT : T.isSigned) : T.InRange v ↔
    -((2 ^ (T.width - 1) : ℕ) : ℤ) ≤ v ∧ v < (2 ^ (T.width - 1) : ℕ) := by
  have hpos : 0 < 2 ^ (T.width - 1) := Nat.two_pow_pos _
  have hmin : T.min = -((2 ^ (T.width - 1) : ℕ) : ℤ) := by
    rw [IntegerType.min, if_pos hT, Nat.cast_pow]
    rfl
  rw [IntegerType.InRange, hmin, IntegerType.max, if_pos hT]
  omega

theorem inRange_iff_of_unsigned (hT : ¬T.isSigned) :
    T.InRange v ↔ 0 ≤ v ∧ v < (2 ^ T.width : ℕ) := by
  have hpos : 0 < 2 ^ T.width := Nat.two_pow_pos _
  rw [IntegerType.InRange, IntegerType.min, if_neg hT, IntegerType.max, if_neg hT]
  omega

/-- What is parsed is always a value of the type. -/
theorem inRange_toInteger (T : IntegerType) (str : List UInt8) : T.InRange (toInteger T str) := by
  have hwidth := two_pow_width T
  rw [toInteger]
  by_cases hT : T.isSigned
  · have hmax : T.max = 2 ^ (T.width - 1) - 1 := if_pos hT
    have hmin : T.min = -((2 ^ (T.width - 1) : ℕ) : ℤ) := by
      rw [IntegerType.min, if_pos hT, Nat.cast_pow]
      rfl
    have hpos : 0 < 2 ^ (T.width - 1) := Nat.two_pow_pos _
    rw [inRange_iff_of_signed hT, if_pos hT, hmin, hmax]
    dsimp only
    split_ifs <;> omega
  · rw [inRange_iff_of_unsigned hT, if_neg hT, digitsValue_eq]
    have := Nat.mod_lt (ofDecimal (str.takeWhile isDigit)) (Nat.two_pow_pos T.width)
    omega

/-- Every value is read back from its text. -/
theorem toInteger_decimalText (hv : T.InRange v) : toInteger T (decimalText v) = v := by
  have hwidth := two_pow_width T
  rw [toInteger]
  by_cases hT : T.isSigned
  · have hmax : T.max = 2 ^ (T.width - 1) - 1 := if_pos hT
    have hmin : T.min = -((2 ^ (T.width - 1) : ℕ) : ℤ) := by
      rw [IntegerType.min, if_pos hT, Nat.cast_pow]
      rfl
    have hpos : 0 < 2 ^ (T.width - 1) := Nat.two_pow_pos _
    rw [inRange_iff_of_signed hT] at hv
    rw [if_pos hT, hmax, hmin, hwidth, decimalText]
    by_cases hneg : v < 0
    · have hminus : decide ((chr '-' :: decimal v.natAbs).head? = some (chr '-')) = true :=
        decide_eq_true rfl
      rw [if_pos hneg, hminus]
      simp only [if_true, List.tail_cons, takeWhile_decimal, digitsValue_decimal, hwidth]
      rw [Nat.mod_eq_of_lt (by omega)]
      -- the minimum alone is above the maximum, and is its own negation
      by_cases hlast : v.natAbs > 2 ^ (T.width - 1) - 1
      · have hwrap : 2 * 2 ^ (T.width - 1) - 1 - v.natAbs + 1 = 2 ^ (T.width - 1) := by omega
        rw [if_pos hlast, hwrap, Nat.mod_eq_of_lt (by omega), if_pos (by omega)]
        omega
      · rw [if_neg hlast]
        omega
    · rw [if_neg hneg, decide_eq_false (head?_decimal_ne _)]
      simp only [Bool.false_eq_true, if_false, takeWhile_decimal, digitsValue_decimal, hwidth]
      rw [Nat.mod_eq_of_lt (by omega), if_neg (by omega)]
      omega
  · rw [inRange_iff_of_unsigned hT] at hv
    rw [if_neg hT, decimalText, if_neg (by omega), takeWhile_decimal, digitsValue_decimal,
      Nat.mod_eq_of_lt (by omega)]
    omega

/-! ## Exactly the printed texts -/

theorem toIntegerSafe_eq (T : IntegerType) (str : List UInt8) : toIntegerSafe T str =
    some (if decimalText (toInteger T str) ≠ str then .error (getToIntegerSafeError str)
      else .ok (toInteger T str)) := by
  rw [toIntegerSafe, printInteger_eq T (inRange_toInteger T str).1]
  rfl

theorem toIntegerSafe_eq_ok {str : List UInt8} :
    toIntegerSafe T str = some (.ok v) ↔ T.InRange v ∧ str = decimalText v := by
  rw [toIntegerSafe_eq, Option.some_inj]
  constructor
  · intro h
    split_ifs at h with hprinted
    obtain rfl := Except.ok.inj h
    exact ⟨inRange_toInteger T str, (not_not.1 hprinted).symm⟩
  · rintro ⟨hv, rfl⟩
    rw [toInteger_decimalText hv]
    exact if_neg (not_not.2 rfl)

/-- A text without a stray character: digits, of which the first is not a zero unless it is the only
one, and a sign in front of them unless they are zero. -/
def WellFormed (str : List UInt8) : Prop :=
  ∃ digits, digits ≠ [] ∧ (∀ c ∈ digits, isDigit c) ∧
    (digits.head? = some (chr '0') → digits = [chr '0']) ∧
    (str = digits ∨ str = chr '-' :: digits ∧ digits ≠ [chr '0'])

theorem wellFormed_decimalText (v : ℤ) : WellFormed (decimalText v) := by
  have hzero : (decimal v.natAbs).head? = some (chr '0') → decimal v.natAbs = [chr '0'] := by
    intro h
    by_cases hv : v.natAbs = 0
    · rw [hv]
      rfl
    · exact absurd h (head?_decimal hv)
  refine ⟨decimal v.natAbs, decimal_ne_nil _, fun _ hc ↦ isDigit_of_mem_decimal hc, hzero, ?_⟩
  rw [decimalText]
  split_ifs with hneg
  · right
    refine ⟨rfl, fun h ↦ ?_⟩
    have hvalue := ofDecimal_decimal v.natAbs
    rw [h] at hvalue
    change 0 = v.natAbs at hvalue
    omega
  · exact .inl rfl

/-- `to_integer_safe` returns a value exactly for the text that is printed for it.  Every value of
the type is printed and read back, and everything else is an error. -/
theorem toIntegerSafe_iff (T : IntegerType) (str : List UInt8) :
    (∀ v, toIntegerSafe T str = some (.ok v) ↔
      T.InRange v ∧ printInteger T v = some str) ∧
    (∀ v, T.InRange v → printInteger T v = some (decimalText v) ∧
      toIntegerSafe T (decimalText v) = some (.ok v)) ∧
    ((∀ v, T.InRange v → str ≠ decimalText v) →
      toIntegerSafe T str = some (.error (getToIntegerSafeError str))) ∧
    (∀ v, ¬T.InRange v → str = decimalText v →
      toIntegerSafe T str = some (.error (getToIntegerSafeError str))) ∧
    (¬WellFormed str → toIntegerSafe T str = some (.error (getToIntegerSafeError str))) := by
  have herror : (∀ v, T.InRange v → str ≠ decimalText v) →
      toIntegerSafe T str = some (.error (getToIntegerSafeError str)) := by
    intro h
    rw [toIntegerSafe_eq, if_pos (h _ (inRange_toInteger T str)).symm]
  refine ⟨fun v ↦ ?_, fun v hv ↦ ?_, herror, fun v hv hstr ↦ herror fun w hw hstr' ↦ ?_,
    fun h ↦ herror fun v _ hstr ↦ ?_⟩
  · rw [toIntegerSafe_eq_ok]
    constructor
    · rintro ⟨hv, rfl⟩
      exact ⟨hv, printInteger_eq T hv.1⟩
    · rintro ⟨hv, hprint⟩
      rw [printInteger_eq T hv.1] at hprint
      exact ⟨hv, (Option.some_inj.1 hprint).symm⟩
  · exact ⟨printInteger_eq T hv.1, toIntegerSafe_eq_ok.2 ⟨hv, rfl⟩⟩
  · exact hv (decimalText_inj (hstr.symm.trans hstr') ▸ hw)
  · exact h (hstr ▸ wellFormed_decimalText v)

/-- The type `signed char`. -/
def int8 : IntegerType := ⟨true, 8, by decide⟩

/-- The least value of eight bits, and the text of the number below it. -/
theorem toIntegerSafe_iff_least :
    toIntegerSafe int8 (decimalText (-128)) = some (.ok (-128)) ∧
      toIntegerSafe int8 (decimalText (-129)) =
        some (.error (getToIntegerSafeError (decimalText (-129)))) :=
  ⟨((toIntegerSafe_iff int8 []).2.1 (-128) ⟨by decide, by decide⟩).2,
    (toIntegerSafe_iff int8 (decimalText (-129))).2.2.2.1 (-129)
      (fun h ↦ absurd h.1 (by decide)) rfl⟩

/-! ## The type `int` -/

/-- The type `int`. -/
def int32 : IntegerType := ⟨true, 32, by decide⟩

theorem toNat_foldl_digits {digits : List UInt8} (hdigits : ∀ c ∈ digits, isDigit c) :
    (digits.foldl (fun v c ↦ v * 10 + (c - chr '0').toUInt32) (0 : UInt32)).toNat =
      digitsValue 32 digits := by
  induction digits using List.reverseRecOn with
  | nil => rfl
  | append_singleton digits c ih =>
    have hc : 48 ≤ c.toNat := by
      have := of_decide_eq_true (hdigits c (by simp))
      exact UInt8.le_iff_toNat_le.1 this.1
    have hsub : (c - chr '0').toUInt32.toNat = c.toNat - (chr '0').toNat := by
      rw [UInt8.toNat_toUInt32, UInt8.toNat_sub_of_le]
      exact UInt8.le_iff_toNat_le.2 hc
    have ih := ih fun c hc ↦ hdigits c (List.mem_append_left _ hc)
    rw [digitsValue] at ih ⊢
    rw [List.foldl_append, List.foldl_cons, List.foldl_nil, UInt32.toNat_add, UInt32.toNat_mul, ih,
      hsub, List.foldl_append, List.foldl_cons, List.foldl_nil, Nat.mod_add_mod]
    rfl

/-- What is parsed as an `int` elsewhere is an instance. -/
theorem toInteger_int32 (str : List UInt8) : PxcCore.toInteger str = toInteger int32 str := by
  have hdigits : ∀ s : List UInt8, ∀ c ∈ s.takeWhile isDigit, isDigit c :=
    fun s c hc ↦ List.mem_takeWhile_imp hc
  have hfold := fun s ↦ toNat_foldl_digits (hdigits s)
  have hsigned : int32.isSigned = true := rfl
  have hmax : int32.max = 2 ^ 31 - 1 := rfl
  have hmin : int32.min = -2 ^ 31 := rfl
  have hwidth : int32.width = 32 := rfl
  rw [PxcCore.toInteger, toInteger, if_pos hsigned, hmax, hmin, hwidth]
  generalize decide (str.head? = some (chr '-')) = isNegative
  dsimp only
  rw [← hfold]
  generalize List.foldl _ (0 : UInt32) _ = value
  have hgt : ∀ x : UInt32, x > 0x7FFFFFFF ↔ x.toNat > 2 ^ 31 - 1 := fun x ↦ UInt32.lt_iff_toNat_lt
  have hneg : (~~~value + 1).toNat = (2 ^ 32 - 1 - value.toNat + 1) % 2 ^ 32 := by
    rw [UInt32.toNat_add, UInt32.toNat_not]
    rfl
  simp only [hgt, hneg]

theorem toIntegerSafe_int32 {str : List UInt8} {v : ℤ} :
    PxcCore.toIntegerSafe str = some v ↔ toIntegerSafe int32 str = some (.ok v) := by
  have hprint : ∀ x, PxcCore.printInt x = decimalText x := fun _ ↦ rfl
  rw [toIntegerSafe_eq, PxcCore.toIntegerSafe, toInteger_int32, hprint]
  split_ifs
  · simp only [Option.some_inj, reduceCtorEq]
  · simp only [Option.some_inj, Except.ok.injEq]

end PxcCore.ToInteger
