import PxcCore.Lib.Crc
import PxcCore.Lib.Result

/-!
# Joining CRC-32C checks

`crc32c_extend` of `crypto.cpp` moves a check behind zeros by a matrix over the field of two
elements for each bit of their number.  The matrices are in one array.
-/

namespace PxcCore.Crypto

open Lib

namespace Crc32c

/-! ## Definitions -/

/-- An access that is not in the array. -/
inductive Fault where
  | outOfBounds
deriving DecidableEq

/-- The words of `power_buf_raw`. -/
abbrev Buf := List (BitVec 32)

/-- A word of the array is read. -/
def load (buf : Buf) (i : ℕ) : Except Fault (BitVec 32) :=
  match buf[i]? with
  | some word => .ok word
  | none => .error .outOfBounds

/-- A word of the array is written. -/
def store (buf : Buf) (i : ℕ) (word : BitVec 32) : Except Fault Buf :=
  if i < buf.length then .ok (buf.set i word) else .error .outOfBounds

/-- The loop of `gf32_matrix_times`. -/
def timesLoop (buf : Buf) (matrix : ℕ) (vector sum : BitVec 32) : Except Fault (BitVec 32) :=
  if vector = 0#32 then .ok sum
  else do
    let sum ← if vector &&& 1#32 ≠ 0#32 then (sum ^^^ ·) <$> load buf matrix else pure sum
    timesLoop buf (matrix + 1) (vector >>> 1) sum
termination_by vector.toNat
decreasing_by
  have hpos : vector.toNat ≠ 0 := by simpa [BitVec.toNat_eq] using ‹vector ≠ 0#32›
  rw [BitVec.toNat_ushiftRight, Nat.shiftRight_eq_div_pow]
  omega

/-- `gf32_matrix_times` -/
def gf32MatrixTimes (buf : Buf) (matrix : ℕ) (vector : BitVec 32) : Except Fault (BitVec 32) :=
  timesLoop buf matrix vector 0

/-- `gf32_matrix_square`, for two matrices in the same array. -/
def gf32MatrixSquare (buf : Buf) (square matrix : ℕ) : Except Fault Buf :=
  (List.range 32).foldlM (fun buf n ↦ do
    let product ← gf32MatrixTimes buf matrix (← load buf (matrix + n))
    store buf (square + n) product) buf

/-- The initialization of `power_buf`. -/
def powerBuf : Except Fault Buf := do
  let buf ← store (List.replicate 1024 0#32) 0 0x82F63B78
  let buf ← (List.range 31).foldlM (fun buf n ↦ store buf (n + 1) (1#32 <<< n)) buf
  (List.range 31).foldlM (fun buf n ↦ gf32MatrixSquare buf ((n + 1) <<< 5) (n <<< 5)) buf

/-- The loop of `crc32c_extend`, for a size that is not zero. -/
def extendLoop (buf : Buf) (p : ℕ) (oldCrc : BitVec 32) (dataSize : ℕ) :
    Except Fault (BitVec 32) := do
  let p := p + 32
  let oldCrc ← if dataSize % 2 = 1 then gf32MatrixTimes buf p oldCrc else pure oldCrc
  if dataSize / 2 = 0 then return oldCrc else extendLoop buf p oldCrc (dataSize / 2)

end Crc32c

open Crc32c

/-- `crc32c_extend` -/
def crc32cExtend (oldCrc dataCrc : BitVec 32) (dataSize : ℕ) : Except Fault (BitVec 32) := do
  let powerBuf ← powerBuf
  if dataSize = 0 then return oldCrc
  let oldCrc ← extendLoop powerBuf 64 oldCrc dataSize
  return oldCrc ^^^ dataCrc

/-- The parameters of CRC-32C. -/
def Crc32c.crc : Crc 32 where
  poly := 0x1EDC6F41
  init := BitVec.allOnes 32
  reflect := true
  xorOut := BitVec.allOnes 32

/-- `crc32c` -/
def crc32c (data : List UInt8) : BitVec 32 := Crc32c.crc.compute data

namespace Crc32c

/-! ## Matrices -/

/-- The array has the images of the unit vectors from an address on. -/
def IsMatrix (buf : Buf) (p : ℕ) (f : BitVec 32 → BitVec 32) : Prop :=
  ∀ j < 32, buf[p + j]? = some (f (1#32 <<< j))

variable {buf : Buf} {p : ℕ} {f : BitVec 32 → BitVec 32}

theorem load_eq {i : ℕ} {word : BitVec 32} (h : buf[i]? = some word) :
    load buf i = .ok word := by
  rw [load, h]

theorem load_eq_error {i : ℕ} (h : buf.length ≤ i) : load buf i = .error .outOfBounds := by
  rw [load, List.getElem?_eq_none h]

theorem and_one_ne_zero (vector : BitVec 32) :
    vector &&& 1#32 ≠ 0#32 ↔ vector.getLsbD 0 = true := by
  rw [BitVec.and_one_eq_setWidth_ofBool_getLsbD]
  cases vector.getLsbD 0 <;> decide

theorem toNat_shiftRight_one (vector : BitVec 32) :
    (vector >>> 1).toNat = vector.toNat / 2 := by
  rw [BitVec.toNat_ushiftRight, Nat.shiftRight_eq_div_pow, pow_one]

/-- The lowest bit of a vector and the rest. -/
theorem eq_xor_shiftRight (vector : BitVec 32) :
    vector = (if vector.getLsbD 0 then 1#32 else 0#32) ^^^ vector >>> 1 <<< 1 := by
  ext i hi
  rw [BitVec.getElem_xor, BitVec.getElem_shiftLeft]
  cases i with
  | zero => cases hbit : vector.getLsbD 0 <;> simpa using hbit
  | succ i =>
    have hone : (if vector.getLsbD 0 then 1#32 else 0#32)[i + 1] = false := by
      cases vector.getLsbD 0 <;> simp [BitVec.getElem_one]
    rw [hone, BitVec.getElem_ushiftRight]
    simp [Nat.add_comm, BitVec.getLsbD_eq_getElem hi]

theorem shiftLeft_eq_xor (vector : BitVec 32) (k : ℕ) :
    vector <<< k =
      (if vector.getLsbD 0 then 1#32 <<< k else 0#32) ^^^ vector >>> 1 <<< (k + 1) := by
  conv_lhs => rw [eq_xor_shiftRight vector]
  rw [BitVec.shiftLeft_xor_distrib, ← BitVec.shiftLeft_add, Nat.add_comm 1]
  cases vector.getLsbD 0 <;> simp

/-- The loop adds the image of what is left of the vector. -/
theorem timesLoop_spec (h : IsMatrix buf p f) (hf : XorHom f) {vector sum : BitVec 32} {k d : ℕ}
    (hk : k + d = 32) (hvector : vector.toNat < 2 ^ d) :
    timesLoop buf (p + k) vector sum = .ok (sum ^^^ f (vector <<< k)) := by
  have hempty (k : ℕ) : f (0#32 <<< k) = 0#32 := by
    rw [BitVec.zero_shiftLeft]
    exact hf.map_zero
  induction d generalizing vector sum k with
  | zero =>
    have hzero : vector = 0#32 := BitVec.eq_of_toNat_eq (by simpa using hvector)
    rw [timesLoop, if_pos hzero, hzero, hempty]
    exact congrArg _ (xor_zero sum).symm
  | succ d ih =>
    have hrest : (vector >>> 1).toNat < 2 ^ d := by
      rw [toNat_shiftRight_one]
      omega
    rw [timesLoop]
    split_ifs with hzero hbit
    · rw [hzero, hempty]
      exact congrArg _ (xor_zero sum).symm
    · rw [and_one_ne_zero] at hbit
      rw [load_eq (h k (by omega)), ok_map, ok_bind]
      refine (@ih (vector >>> 1) (sum ^^^ f (1#32 <<< k)) (k + 1) (by omega) hrest).trans ?_
      rw [shiftLeft_eq_xor vector k, if_pos hbit, hf, xor_assoc]
    · rw [and_one_ne_zero] at hbit
      refine (@ih (vector >>> 1) sum (k + 1) (by omega) hrest).trans ?_
      rw [shiftLeft_eq_xor vector k, if_neg hbit]
      exact congrArg (fun v ↦ Except.ok (sum ^^^ f v)) (zero_xor (vector >>> 1 <<< (k + 1))).symm

/-- The product of a matrix and a vector is the image of the vector. -/
theorem gf32MatrixTimes_spec (h : IsMatrix buf p f) (hf : XorHom f) (vector : BitVec 32) :
    gf32MatrixTimes buf p vector = .ok (f vector) := by
  have hloop := @timesLoop_spec buf p f h hf vector 0 0 32 rfl vector.isLt
  rw [BitVec.shiftLeft_zero, zero_xor] at hloop
  exact hloop

/-- Behind the end of the array there is a product with no vector but zero. -/
theorem timesLoop_outOfBounds {vector sum : BitVec 32} (hp : buf.length ≤ p)
    (hvector : vector ≠ 0#32) : timesLoop buf p vector sum = .error .outOfBounds := by
  induction hn : vector.toNat using Nat.strong_induction_on generalizing vector sum p with
  | _ n ih =>
    rw [timesLoop, if_neg hvector]
    split_ifs with hbit
    · rw [load_eq_error hp]
      rfl
    · rw [and_one_ne_zero] at hbit
      have hrest : vector >>> 1 ≠ 0#32 := by
        intro hzero
        have heq := eq_xor_shiftRight vector
        rw [if_neg hbit, hzero] at heq
        exact hvector (by simpa using heq)
      have hpos : vector.toNat ≠ 0 := by simpa [BitVec.toNat_eq] using hvector
      have hless : (vector >>> 1).toNat < n := by
        rw [toNat_shiftRight_one]
        omega
      exact ih _ hless (by omega) hrest rfl

/-! ## The array of the matrices -/

theorem store_eq {i : ℕ} (word : BitVec 32) (h : i < buf.length) :
    store buf i word = .ok (buf.set i word) := if_pos h

/-- The array after so many rows of a square were stored. -/
structure Rows (buf : Buf) (f : BitVec 32 → BitVec 32) (square n : ℕ) (buf' : Buf) : Prop where
  length : buf'.length = buf.length
  rows : ∀ j < n, buf'[square + j]? = some (f (1#32 <<< j))
  before : ∀ i < square, buf'[i]? = buf[i]?

/-- Another row. -/
theorem Rows.set {square n : ℕ} {buf' : Buf} (h : Rows buf f square n buf')
    (hn : square + n < buf.length) :
    Rows buf f square (n + 1) (buf'.set (square + n) (f (1#32 <<< n))) where
  length := by rw [List.length_set, h.length]
  rows j hj := by
    have hin : square + n < buf'.length := hn.trans_eq h.length.symm
    rcases Nat.lt_succ_iff_lt_or_eq.mp hj with hlt | rfl
    · rw [List.getElem?_set_ne (by omega)]
      exact h.rows j hlt
    · rw [List.getElem?_set_self hin]
  before i hi := by
    rw [List.getElem?_set_ne (by omega)]
    exact h.before i hi

/-- The square of a matrix is stored behind it. -/
theorem gf32MatrixSquare_spec (h : IsMatrix buf p f) (hf : XorHom f) {square : ℕ}
    (hp : p + 32 ≤ square) (hsquare : square + 32 ≤ buf.length) :
    ∃ buf', gf32MatrixSquare buf square p = .ok buf' ∧ Rows buf (f ∘ f) square 32 buf' := by
  refine foldlM_range_spec ⟨rfl, by simp, fun _ _ ↦ rfl⟩ fun n hn buf' hrows ↦ ?_
  have hmatrix : IsMatrix buf' p f := fun j hj ↦ by
    rw [hrows.before _ (by omega)]
    exact h j hj
  have hlength := hrows.length
  refine ⟨_, ?_, hrows.set (by omega)⟩
  rw [load_eq (hmatrix n hn), ok_bind, gf32MatrixTimes_spec hmatrix hf, ok_bind,
    store_eq _ (by omega)]
  rfl

/-- Moving a check by `2 ^ n` bits. -/
def power (n : ℕ) : BitVec 32 → BitVec 32 := (Crc.shiftDown 0x82F63B78)^[2 ^ n]

theorem xorHom_power (n : ℕ) : XorHom (power n) := Crc.xorHom_shiftDown.iterate _

theorem power_comp (n : ℕ) : power n ∘ power n = power (n + 1) := by
  rw [power, power, ← Function.iterate_add, pow_succ, Nat.mul_two]

theorem power_zero_one : power 0 (1#32 <<< 0) = 0x82F63B78 := by decide

theorem power_zero_shiftLeft : ∀ j < 31, power 0 (1#32 <<< (j + 1)) = 1#32 <<< j := by
  decide +kernel

/-- The first matrix moves a check by one bit. -/
theorem isMatrix_first {buf : Buf} (hbuf : 32 ≤ buf.length) (hfirst : buf[0]? = some 0x82F63B78) :
    ∃ buf', (List.range 31).foldlM (fun buf n ↦ store buf (n + 1) (1#32 <<< n)) buf = .ok buf' ∧
      buf'.length = buf.length ∧ IsMatrix buf' 0 (power 0) := by
  obtain ⟨buf', hrun, hlength, hzero, hrows⟩ : ∃ buf',
      (List.range 31).foldlM (fun buf n ↦ store buf (n + 1) (1#32 <<< n)) buf = .ok buf' ∧
        buf'.length = buf.length ∧ buf'[0]? = some 0x82F63B78 ∧
        ∀ j < 31, buf'[j + 1]? = some (1#32 <<< j) := by
    refine foldlM_range_spec (P := fun n buf' ↦ buf'.length = buf.length ∧
      buf'[0]? = some 0x82F63B78 ∧ ∀ j < n, buf'[j + 1]? = some (1#32 <<< j))
      ⟨rfl, hfirst, by simp⟩ ?_
    rintro n hn buf' ⟨hlength, hzero, hrows⟩
    refine ⟨_, store_eq _ (by omega), by rw [List.length_set, hlength], ?_, fun j hj ↦ ?_⟩
    · rwa [List.getElem?_set_ne (by omega)]
    · rcases Nat.lt_succ_iff_lt_or_eq.mp hj with hlt | rfl
      · rw [List.getElem?_set_ne (by omega)]
        exact hrows j hlt
      · rw [List.getElem?_set_self (by omega)]
  refine ⟨buf', hrun, hlength, fun j hj ↦ ?_⟩
  cases j with
  | zero => rw [power_zero_one, hzero]
  | succ j => rw [power_zero_shiftLeft j (by omega), Nat.zero_add, hrows j (by omega)]

/-- The array has the matrices of all powers of two. -/
theorem powerBuf_spec : ∃ buf, powerBuf = .ok buf ∧ buf.length = 1024 ∧
    ∀ n < 32, IsMatrix buf (32 * n) (power n) := by
  have hempty : (List.replicate 1024 0#32).length = 1024 := List.length_replicate
  have hlength : ((List.replicate 1024 0#32).set 0 0x82F63B78).length = 1024 := by
    rw [List.length_set, hempty]
  obtain ⟨buf₀, hfirst, hlength₀, hmatrix₀⟩ := isMatrix_first (by rw [hlength]; decide)
    (List.getElem?_set_self (by rw [hempty]; decide))
  rw [hlength] at hlength₀
  obtain ⟨buf, hrest, hlength, hmatrix⟩ : ∃ buf,
      (List.range 31).foldlM (fun buf n ↦ gf32MatrixSquare buf ((n + 1) <<< 5) (n <<< 5)) buf₀ =
        .ok buf ∧ buf.length = 1024 ∧ ∀ k ≤ 31, IsMatrix buf (32 * k) (power k) := by
    refine foldlM_range_spec (P := fun n buf ↦ buf.length = 1024 ∧
      ∀ k ≤ n, IsMatrix buf (32 * k) (power k)) ⟨hlength₀, fun k hk ↦ ?_⟩ ?_
    · obtain rfl := Nat.le_zero.mp hk
      exact hmatrix₀
    · rintro n hn buf ⟨hlength, hmatrix⟩
      obtain ⟨buf', hsquare, hrows⟩ := @gf32MatrixSquare_spec buf (32 * n) (power n)
        (hmatrix n le_rfl) (xorHom_power n) (32 * (n + 1)) (by omega) (by omega)
      rw [power_comp] at hrows
      refine ⟨buf', ?_, hrows.length.trans hlength, fun k hk ↦ ?_⟩
      · rw [Nat.shiftLeft_eq, Nat.shiftLeft_eq, Nat.mul_comm, Nat.mul_comm n]
        exact hsquare
      · rcases Nat.le_succ_iff.mp hk with hle | rfl
        · intro j hj
          rw [hrows.before _ (by omega)]
          exact hmatrix k hle j hj
        · exact hrows.rows
  refine ⟨buf, ?_, hlength, fun n hn ↦ hmatrix n (by omega)⟩
  rw [powerBuf, store_eq _ (by rw [List.length_replicate]; decide), ok_bind, hfirst, ok_bind, hrest]

/-! ## Moving a check -/

/-- The bytes of a size, bit by bit. -/
theorem pow_mul_div_add_mod (n size : ℕ) :
    2 ^ (n + 1) * (size / 2) + 2 ^ n * (size % 2) = 2 ^ n * size := by
  conv_rhs => rw [← Nat.div_add_mod size 2]
  ring

theorem iterate_add_power (n size : ℕ) (crc : BitVec 32) :
    (Crc.shiftDown 0x82F63B78)^[2 ^ (n + 1) * (size / 2)]
        (if size % 2 = 1 then power n crc else crc) =
      (Crc.shiftDown 0x82F63B78)^[2 ^ n * size] crc := by
  rw [← pow_mul_div_add_mod n size, Function.iterate_add_apply]
  rcases Nat.mod_two_eq_zero_or_one size with hbit | hbit
  · rw [hbit, if_neg (by decide)]
    rfl
  · rw [hbit, if_pos rfl, Nat.mul_one]
    rfl

/-- One round of the loop inside of the array. -/
theorem extendLoop_step (hmatrix : ∀ n < 32, IsMatrix buf (32 * n) (power n)) (crc : BitVec 32)
    {n : ℕ} (hn : n < 29) (size : ℕ) :
    extendLoop buf (32 * (n + 2)) crc size =
      if size / 2 = 0 then .ok (if size % 2 = 1 then power (n + 3) crc else crc)
      else extendLoop buf (32 * (n + 3)) (if size % 2 = 1 then power (n + 3) crc else crc)
        (size / 2) := by
  have hnext : 32 * (n + 2) + 32 = 32 * (n + 3) := by ring
  rw [extendLoop, hnext]
  split_ifs with hbit
  · rw [gf32MatrixTimes_spec (hmatrix (n + 3) (by omega)) (xorHom_power _)]
    rfl
  · rw [gf32MatrixTimes_spec (hmatrix (n + 3) (by omega)) (xorHom_power _)]
    rfl
  · rfl
  · rfl

/-- The loop takes a matrix for each bit of the size, as long as there are matrices. -/
theorem extendLoop_spec (hmatrix : ∀ n < 32, IsMatrix buf (32 * n) (power n)) (crc : BitVec 32)
    {n size : ℕ} (hsize : size < 2 ^ (29 - n)) (hpos : size ≠ 0) :
    extendLoop buf (32 * (n + 2)) crc size =
      .ok ((Crc.shiftDown 0x82F63B78)^[2 ^ (n + 3) * size] crc) := by
  induction hd : 29 - n generalizing n size crc with
  | zero =>
    rw [hd] at hsize
    omega
  | succ d ih =>
    rw [extendLoop_step hmatrix crc (by omega), ← iterate_add_power (n + 3) size]
    by_cases hlast : size / 2 = 0
    · rw [if_pos hlast, hlast, Nat.mul_zero]
      rfl
    · rw [if_neg hlast]
      have hrest : size / 2 < 2 ^ (29 - (n + 1)) := by
        rw [hd] at hsize
        have hexp : 29 - (n + 1) = d := by omega
        rw [hexp]
        omega
      exact ih _ hrest hlast (by omega)

theorem power_ne_zero (n : ℕ) {crc : BitVec 32} (hcrc : crc ≠ 0#32) : power n crc ≠ 0#32 :=
  XorHom.iterate_ne_zero (fun _ ↦ Crc.shiftDown_ne_zero (by decide)) _ hcrc

/-- A size with more bits than there are matrices leads out of the array, except for zero. -/
theorem extendLoop_outOfBounds (hlength : buf.length = 1024)
    (hmatrix : ∀ n < 32, IsMatrix buf (32 * n) (power n)) {crc : BitVec 32} (hcrc : crc ≠ 0#32)
    {n size : ℕ} (hsize : 2 ^ (29 - n) ≤ size) :
    extendLoop buf (32 * (n + 2)) crc size = .error .outOfBounds := by
  induction size using Nat.strong_induction_on generalizing n crc with
  | _ size ih =>
    have hpos : 0 < size := (Nat.two_pow_pos _).trans_le hsize
    by_cases hn : n < 29
    · have hhalf : 2 ^ (29 - (n + 1)) ≤ size / 2 := by
        have hexp : 29 - n = 29 - (n + 1) + 1 := by omega
        rw [hexp, pow_succ] at hsize
        omega
      have hmore : size / 2 ≠ 0 := ((Nat.two_pow_pos _).trans_le hhalf).ne'
      rw [extendLoop_step hmatrix crc hn, if_neg hmore]
      refine ih _ (by omega) ?_ hhalf
      split_ifs
      · exact power_ne_zero _ hcrc
      · exact hcrc
    · rw [extendLoop]
      split_ifs with hbit hlast hlast
      · rw [gf32MatrixTimes, timesLoop_outOfBounds (by omega) hcrc]
        rfl
      · rw [gf32MatrixTimes, timesLoop_outOfBounds (by omega) hcrc]
        rfl
      · omega
      · have hhalf : 2 ^ (29 - (n + 1)) ≤ size / 2 := by
          have hexp : 29 - (n + 1) = 0 := by omega
          rw [hexp]
          omega
        exact ih _ (by omega) hcrc hhalf

theorem extendLoop_zero (buf : Buf) (p size : ℕ) : extendLoop buf p 0#32 size = .ok 0#32 := by
  induction size using Nat.strong_induction_on generalizing p with
  | _ size ih =>
    have htimes : gf32MatrixTimes buf (p + 32) 0#32 = .ok 0#32 := by
      rw [gf32MatrixTimes, timesLoop, if_pos rfl]
      rfl
    rw [extendLoop, htimes]
    split_ifs with hbit hlast hlast
    · rfl
    · exact ih _ (by omega) _
    · rfl
    · exact ih _ (by omega) _

end Crc32c

/-! ## Main result -/

/-- A check is moved behind as many bytes as the next one is for. -/
theorem crc32c_append (a b : List UInt8) :
    crc32c (a ++ b) =
      (Crc.shiftDown 0x82F63B78)^[8 * b.length] (crc32c a) ^^^ crc32c b := by
  have hreverse : crc.poly.reverse = 0x82F63B78 := by decide +kernel
  have happend := crc.compute_append (by decide) rfl (by decide +kernel) a b
  rw [hreverse] at happend
  exact happend

theorem crc32cExtend_nil (oldCrc dataCrc : BitVec 32) :
    crc32cExtend oldCrc dataCrc 0 = .ok oldCrc := by
  obtain ⟨buf, hbuf, -, -⟩ := powerBuf_spec
  rw [crc32cExtend, hbuf]
  rfl

theorem crc32cExtend_of_lt (a : List UInt8) {b : List UInt8} (hb : b.length < 2 ^ 29) :
    crc32cExtend (crc32c a) (crc32c b) b.length = .ok (crc32c (a ++ b)) := by
  obtain ⟨buf, hbuf, -, hmatrix⟩ := powerBuf_spec
  by_cases hempty : b.length = 0
  · rw [hempty, crc32cExtend_nil, List.length_eq_zero_iff.mp hempty, List.append_nil]
  · rw [crc32cExtend, hbuf, ok_bind, if_neg hempty,
      extendLoop_spec (n := 0) hmatrix (crc32c a) hb hempty, ok_bind, crc32c_append]
    rfl

/-- The check zero stays zero, wherever it is moved. -/
theorem crc32cExtend_of_eq_zero {a : List UInt8} (ha : crc32c a = 0#32) (b : List UInt8) :
    crc32cExtend (crc32c a) (crc32c b) b.length = .ok (crc32c (a ++ b)) := by
  obtain ⟨buf, hbuf, -, -⟩ := powerBuf_spec
  by_cases hempty : b.length = 0
  · rw [hempty, crc32cExtend_nil, List.length_eq_zero_iff.mp hempty, List.append_nil]
  · rw [crc32cExtend, hbuf, ok_bind, if_neg hempty, ha, extendLoop_zero, ok_bind, crc32c_append, ha]
    exact congrArg (fun v ↦ Except.ok (v ^^^ crc32c b))
      (Crc.xorHom_shiftDown.iterate _).map_zero.symm

theorem crc32cExtend_outOfBounds {a : List UInt8} (ha : crc32c a ≠ 0#32) (dataCrc : BitVec 32)
    {size : ℕ} (hsize : 2 ^ 29 ≤ size) :
    crc32cExtend (crc32c a) dataCrc size = .error .outOfBounds := by
  obtain ⟨buf, hbuf, hlength, hmatrix⟩ := powerBuf_spec
  have hpos : size ≠ 0 := ((Nat.two_pow_pos _).trans_le hsize).ne'
  rw [crc32cExtend, hbuf, ok_bind, if_neg hpos,
    extendLoop_outOfBounds (n := 0) hlength hmatrix ha hsize]
  rfl

/-- Checks are joined, without an access out of the array, exactly if the size has a matrix for each
of its bits or the first check is zero. -/
theorem crc32cExtend_eq_ok_iff (a b : List UInt8) :
    crc32cExtend (crc32c a) (crc32c b) b.length = .ok (crc32c (a ++ b)) ↔
      b.length < 2 ^ 29 ∨ crc32c a = 0 := by
  constructor
  · intro hok
    by_contra hnot
    rw [not_or, not_lt] at hnot
    rw [crc32cExtend_outOfBounds hnot.2 _ hnot.1] at hok
    cases hok
  · rintro (hb | ha)
    · exact crc32cExtend_of_lt a hb
    · exact crc32cExtend_of_eq_zero ha b

/-- One byte before `2 ^ 29` bytes. -/
theorem crc32cExtend_fails :
    crc32cExtend (crc32c [97]) (crc32c (List.replicate (2 ^ 29) 0))
      (List.replicate (2 ^ 29) (0 : UInt8)).length = .error .outOfBounds :=
  crc32cExtend_outOfBounds (by decide +kernel) _ List.length_replicate.ge

/-- The check value of the polynomial. -/
example : crc32c [49, 50, 51, 52, 53, 54, 55, 56, 57] = 0xE3069283 := by decide +kernel

end PxcCore.Crypto
