import Mathlib

/-!
# Cyclic redundancy checks

A message over the field of two elements is divided by a generator, one bit after the other.  A
register holds the remainder so far, with its highest power of `X` in the highest bit or, reflected,
in the lowest one.  The eight steps for a byte are linear, so that a table can make them at once.
-/

namespace PxcCore.Lib

open Polynomial

/-! ## Exclusive or -/

/-- A map that exclusive or goes through. -/
def XorHom {α β : Type*} [XorOp α] [XorOp β] (f : α → β) : Prop := ∀ a b, f (a ^^^ b) = f a ^^^ f b

namespace XorHom

variable {α : Type*} [XorOp α] {f : α → α}

theorem iterate (h : XorHom f) (n : ℕ) : XorHom f^[n] := by
  intro a b
  induction n with
  | zero => rfl
  | succ n ih => rw [Function.iterate_succ_apply', Function.iterate_succ_apply',
      Function.iterate_succ_apply', ih, h]

theorem map_zero [Zero α] [LawfulXor α] (h : XorHom f) : f 0 = 0 := by
  have hzero := h 0 0
  rwa [LawfulXor.xor_self, LawfulXor.xor_self] at hzero

/-- A map of which only zero is mapped to zero. -/
theorem iterate_ne_zero [Zero α] [LawfulXor α] (h : ∀ a ≠ 0, f a ≠ 0) (n : ℕ) {a : α}
    (ha : a ≠ 0) : f^[n] a ≠ 0 := by
  induction n with
  | zero => exact ha
  | succ n ih =>
    rw [Function.iterate_succ_apply']
    exact h _ ih

end XorHom

/-! ## Steps of the division -/

namespace Crc

section Steps

variable {w : ℕ} (poly r : BitVec w)

/-- The next bit, for a register whose highest bit has the highest power. -/
def shiftUp : BitVec w := r <<< 1 ^^^ if r.msb then poly else 0

/-- The next bit, for a register whose lowest bit has the highest power. -/
def shiftDown : BitVec w := r >>> 1 ^^^ if r.getLsbD 0 then poly else 0

/-- The next byte, bit by bit. -/
def byteUp (b : BitVec 8) : BitVec w := (shiftUp poly)^[8] (r ^^^ b.setWidth w <<< (w - 8))

/-- The next byte, bit by bit, for a reflected register. -/
def byteDown (b : BitVec 8) : BitVec w := (shiftDown poly)^[8] (r ^^^ b.setWidth w)

variable {poly r}

theorem ite_xor (a b : Bool) (poly : BitVec w) :
    (if (a ^^ b) then poly else 0) = (if a then poly else 0) ^^^ if b then poly else 0 := by
  cases a <;> cases b <;> simp

theorem xorHom_shiftUp : XorHom (shiftUp poly) := by
  intro a b
  rw [shiftUp, shiftUp, shiftUp, BitVec.shiftLeft_xor_distrib, BitVec.msb_xor, ite_xor]
  ac_rfl

theorem xorHom_shiftDown : XorHom (shiftDown poly) := by
  intro a b
  rw [shiftDown, shiftDown, shiftDown, BitVec.ushiftRight_xor_distrib, BitVec.getLsbD_xor, ite_xor]
  ac_rfl

/-! ## Reflection -/

theorem reverse_xor (a b : BitVec w) : (a ^^^ b).reverse = a.reverse ^^^ b.reverse := by
  ext i hi
  simp [BitVec.getElem_reverse]

theorem reverse_shiftLeft (n : ℕ) : (r <<< n).reverse = r.reverse >>> n := by
  ext i hi
  rw [BitVec.getElem_reverse, BitVec.getElem_ushiftRight, BitVec.getLsbD_reverse,
    BitVec.getMsbD_shiftLeft, Nat.add_comm]

theorem reverse_setWidth (hw : 8 ≤ w) (b : BitVec 8) :
    (b.setWidth w <<< (w - 8)).reverse = b.reverse.setWidth w := by
  ext i hi
  rw [BitVec.getElem_reverse, BitVec.getMsbD_eq_getLsbD, BitVec.getLsbD_shiftLeft,
    BitVec.getElem_setWidth, BitVec.getLsbD_reverse, BitVec.getMsbD_eq_getLsbD,
    BitVec.getLsbD_setWidth]
  have hlast : w - 1 - i < w := by omega
  by_cases h : i < 8
  · have hidx : w - 1 - i - (w - 8) = 8 - 1 - i := by omega
    have hlow : ¬w - 1 - i < w - 8 := by omega
    have hwidth : 8 - 1 - i < w := by omega
    simp [h, hidx, hi, hlow, hlast, hwidth]
  · have hlow : w - 1 - i < w - 8 := by omega
    simp [h, hlow]

/-- Nothing but zero is stepped to zero, if the generator has a constant term. -/
theorem shiftDown_ne_zero (hpoly : poly.msb = true) (hr : r ≠ 0) : shiftDown poly r ≠ 0 := by
  intro hzero
  have heq : r >>> 1 = if r.getLsbD 0 then poly else 0 := BitVec.xor_eq_zero_iff.mp hzero
  cases hbit : r.getLsbD 0 with
  | true =>
    rw [hbit, if_pos rfl] at heq
    rw [← heq, BitVec.msb_ushiftRight] at hpoly
    simp at hpoly
  | false =>
    refine hr (BitVec.eq_of_getLsbD_eq fun i hi ↦ ?_)
    rw [hbit, if_neg Bool.false_ne_true] at heq
    cases i with
    | zero => simpa using hbit
    | succ i =>
      have hnext := congrArg (fun r ↦ r.getLsbD i) heq
      simpa [Nat.add_comm] using hnext

/-- A reflected register is stepped to what the register is stepped to, reflected. -/
theorem reverse_shiftUp : (shiftUp poly r).reverse = shiftDown poly.reverse r.reverse := by
  rw [shiftUp, shiftDown, reverse_xor, reverse_shiftLeft, BitVec.getLsbD_reverse, ← BitVec.msb]
  cases r.msb <;> simp

theorem reverse_iterate_shiftUp (n : ℕ) :
    ((shiftUp poly)^[n] r).reverse = (shiftDown poly.reverse)^[n] r.reverse := by
  induction n generalizing r with
  | zero => rfl
  | succ n ih => rw [Function.iterate_succ_apply, Function.iterate_succ_apply, ih, reverse_shiftUp]

theorem reverse_byteUp (hw : 8 ≤ w) (b : BitVec 8) :
    (byteUp poly r b).reverse = byteDown poly.reverse r.reverse b.reverse := by
  rw [byteUp, byteDown, reverse_iterate_shiftUp, reverse_xor, reverse_setWidth hw]

/-! ## Tables -/

theorem getElem_255 {i : ℕ} (hi : i < w) : (255#w)[i] = decide (i < 8) := by
  have hones : 255 = 2 ^ 8 - 1 := rfl
  rw [← BitVec.getLsbD_eq_getElem, BitVec.getLsbD_ofNat, hones, Nat.testBit_two_pow_sub_one]
  simp [hi]

/-- The lowest byte and the rest. -/
theorem split_low (x : BitVec w) : x = x &&& 255#w ^^^ x >>> 8 <<< 8 := by
  ext i hi
  simp only [BitVec.getElem_xor, BitVec.getElem_and, getElem_255, BitVec.getElem_shiftLeft,
    BitVec.getElem_ushiftRight]
  by_cases h : i < 8
  · simp [h]
  · have hidx : 8 + (i - 8) = i := by omega
    simp [h, hidx, BitVec.getLsbD_eq_getElem hi]

/-- The highest byte and the rest. -/
theorem split_high (hw : 8 ≤ w) (x : BitVec w) :
    x = x >>> (w - 8) <<< (w - 8) ^^^ x <<< 8 >>> 8 := by
  ext i hi
  simp only [BitVec.getElem_xor, BitVec.getElem_shiftLeft, BitVec.getElem_ushiftRight,
    BitVec.getLsbD_shiftLeft]
  by_cases h : i < w - 8
  · have hlast : 8 + i < w := by omega
    simp [h, hlast, BitVec.getLsbD_eq_getElem hi]
  · have hlast : ¬8 + i < w := by omega
    have hidx : w - 8 + (i - (w - 8)) = i := by omega
    simp [h, hlast, hidx, BitVec.getLsbD_eq_getElem hi]

/-- The bits that are not among the lowest ones are only moved. -/
theorem iterate_shiftDown_shiftLeft (x : BitVec w) {n : ℕ} (hn : n ≤ 8) :
    (shiftDown poly)^[n] (x >>> 8 <<< n) = x >>> 8 := by
  induction n with
  | zero => simp
  | succ n ih =>
    have hbit : (x >>> 8 <<< (n + 1)).getLsbD 0 = false := by simp
    have hmove : x >>> 8 <<< (n + 1) >>> 1 = x >>> 8 <<< n := by
      ext i hi
      simp only [BitVec.getElem_ushiftRight, BitVec.getLsbD_shiftLeft, BitVec.getElem_shiftLeft,
        BitVec.getLsbD_ushiftRight]
      by_cases hlast : 1 + i < w
      · have hidx : 1 + i - (n + 1) = i - n := by omega
        have hiff : 1 + i < n + 1 ↔ i < n := by omega
        simp [hlast, hidx, hiff]
      · have hout : w ≤ 8 + (i - n) := by omega
        simp [hlast, BitVec.getLsbD_of_ge _ _ hout]
    rw [Function.iterate_succ_apply, shiftDown, hbit, hmove]
    simpa using ih (by omega)

theorem iterate_shiftUp_ushiftRight (x : BitVec w) {n : ℕ} (hn : n ≤ 8) :
    (shiftUp poly)^[n] (x <<< 8 >>> n) = x <<< 8 := by
  induction n with
  | zero => simp
  | succ n ih =>
    have hbit : (x <<< 8 >>> (n + 1)).msb = false := by simp [BitVec.msb_ushiftRight]
    have hmove : x <<< 8 >>> (n + 1) <<< 1 = x <<< 8 >>> n := by
      ext i hi
      simp only [BitVec.getElem_ushiftRight, BitVec.getLsbD_shiftLeft, BitVec.getElem_shiftLeft]
      cases i with
      | zero =>
        have hlow : n < 8 := by omega
        simp [hlow]
      | succ i =>
        have hidx : n + 1 + i = n + (i + 1) := by omega
        simp [hidx]
    rw [Function.iterate_succ_apply, shiftUp, hbit, hmove]
    simpa using ih (by omega)

/-- The table has the eight steps of the lowest byte; the others are moved down. -/
theorem byteDown_eq_table (r : BitVec w) (b : BitVec 8) :
    byteDown poly r b =
      (shiftDown poly)^[8] ((r ^^^ b.setWidth w) &&& 255#w) ^^^ r >>> 8 := by
  have hbyte : b.setWidth w >>> 8 = 0 := by
    ext i hi
    simp
  have hrest : (r ^^^ b.setWidth w) >>> 8 = r >>> 8 := by
    rw [BitVec.ushiftRight_xor_distrib, hbyte, xor_zero]
  rw [byteDown]
  conv_lhs => rw [split_low (r ^^^ b.setWidth w)]
  rw [xorHom_shiftDown.iterate 8, iterate_shiftDown_shiftLeft _ le_rfl, hrest]

/-- The table has the eight steps of the highest byte; the others are moved up. -/
theorem byteUp_eq_table (hw : 8 ≤ w) (r : BitVec w) (b : BitVec 8) :
    byteUp poly r b =
      (shiftUp poly)^[8] ((r >>> (w - 8) ^^^ b.setWidth w) <<< (w - 8)) ^^^ r <<< 8 := by
  have hbyte (r : BitVec w) : r ^^^ b.setWidth w <<< (w - 8) =
      (r >>> (w - 8) ^^^ b.setWidth w) <<< (w - 8) ^^^ r <<< 8 >>> 8 := by
    conv_lhs => rw [split_high hw r]
    rw [BitVec.shiftLeft_xor_distrib]
    ac_rfl
  rw [byteUp, hbyte, xorHom_shiftUp.iterate 8, iterate_shiftUp_ushiftRight _ le_rfl]

end Steps

/-! ## Polynomials -/

section Polynomials

variable {w : ℕ} {poly r : BitVec w}

/-- The bits of a word as coefficients. -/
noncomputable def toPoly (r : BitVec w) : (ZMod 2)[X] :=
  ∑ i ∈ Finset.range w, if r.getLsbD i then X ^ i else 0

/-- The polynomial that is divided by: the word lacks its highest power. -/
noncomputable def generator (poly : BitVec w) : (ZMod 2)[X] := X ^ w + toPoly poly

/-- The coefficients of bytes, the highest power first. -/
noncomputable def message (data : List (BitVec 8)) : (ZMod 2)[X] :=
  data.foldl (fun p b ↦ X ^ 8 * p + toPoly b) 0

theorem toPoly_xor (a b : BitVec w) : toPoly (a ^^^ b) = toPoly a + toPoly b := by
  rw [toPoly, toPoly, toPoly, ← Finset.sum_add_distrib]
  refine Finset.sum_congr rfl fun i _ ↦ ?_
  rw [BitVec.getLsbD_xor]
  cases a.getLsbD i <;> cases b.getLsbD i <;> simp [CharTwo.add_self_eq_zero]

theorem degree_toPoly_lt (r : BitVec w) : (toPoly r).degree < w := by
  rw [← mem_degreeLT]
  refine Submodule.sum_mem _ fun i hi ↦ ?_
  rw [mem_degreeLT]
  split_ifs
  · rw [degree_X_pow]
    exact_mod_cast Finset.mem_range.mp hi
  · simp

theorem monic_generator (poly : BitVec w) : (generator poly).Monic :=
  monic_X_pow_add (degree_toPoly_lt poly)

theorem degree_generator (poly : BitVec w) : (generator poly).degree = w := by
  rw [generator, degree_add_eq_left_of_degree_lt, degree_X_pow]
  rw [degree_X_pow]
  exact degree_toPoly_lt poly

/-- A shift multiplies by `X`, where the highest power is lost. -/
theorem toPoly_shiftLeft_one (r : BitVec w) :
    toPoly (r <<< 1) + (if r.msb then X ^ w else 0) = X * toPoly r := by
  cases w with
  | zero => simp [toPoly, BitVec.eq_nil r]
  | succ n =>
    have hmsb : r.msb = r.getLsbD n := BitVec.msb_eq_getLsbD_last r
    have hterm (i : ℕ) (hi : i ∈ Finset.range n) :
        (if (r <<< 1).getLsbD (i + 1) then X ^ (i + 1) else (0 : (ZMod 2)[X])) =
          X * if r.getLsbD i then X ^ i else 0 := by
      rw [Finset.mem_range] at hi
      rw [BitVec.getLsbD_shiftLeft, mul_ite, mul_zero, ← pow_succ']
      simp [hi]
    have hlast : (if r.msb then X ^ (n + 1) else (0 : (ZMod 2)[X])) =
        X * if r.getLsbD n then X ^ n else 0 := by
      rw [hmsb, mul_ite, mul_zero, ← pow_succ']
    rw [toPoly, toPoly, Finset.sum_range_succ', Finset.sum_range_succ, mul_add, Finset.mul_sum,
      Finset.sum_congr rfl hterm, hlast]
    simp

/-- A step of the register is a step of the long division. -/
theorem toPoly_shiftUp (poly r : BitVec w) :
    toPoly (shiftUp poly r) = (X * toPoly r) %ₘ generator poly := by
  refine (div_modByMonic_unique (if r.msb then 1 else 0) _ (monic_generator poly)
    ⟨?_, ?_⟩).2.symm
  · rw [shiftUp, toPoly_xor, ← toPoly_shiftLeft_one r, generator]
    cases r.msb with
    | false => simp [toPoly]
    | true =>
      have hcancel : toPoly poly + (X ^ w + toPoly poly) = X ^ w := by
        rw [add_left_comm, CharTwo.add_self_eq_zero, add_zero]
      rw [if_pos rfl, if_pos rfl, if_pos rfl, mul_one, add_assoc, hcancel]
  · rw [degree_generator]
    exact degree_toPoly_lt _

theorem mul_modByMonic_modByMonic {g : (ZMod 2)[X]} (hg : g.Monic) (p q : (ZMod 2)[X]) :
    (q * (p %ₘ g)) %ₘ g = (q * p) %ₘ g := by
  refine modByMonic_eq_of_dvd_sub hg ?_
  rw [← mul_sub]
  exact (dvd_modByMonic_sub p g).mul_left q

theorem toPoly_iterate_shiftUp (poly r : BitVec w) (n : ℕ) :
    toPoly ((shiftUp poly)^[n] r) = (X ^ n * toPoly r) %ₘ generator poly := by
  induction n with
  | zero =>
    rw [pow_zero, one_mul, (modByMonic_eq_self_iff (monic_generator poly)).mpr]
    · rfl
    · rw [degree_generator]
      exact degree_toPoly_lt r
  | succ n ih =>
    rw [Function.iterate_succ_apply', toPoly_shiftUp, ih,
      mul_modByMonic_modByMonic (monic_generator poly), ← mul_assoc, pow_succ']

/-- A byte at the highest bits. -/
theorem toPoly_setWidth_shiftLeft (hw : 8 ≤ w) (b : BitVec 8) :
    toPoly (b.setWidth w <<< (w - 8)) = X ^ (w - 8) * toPoly b := by
  obtain ⟨n, rfl⟩ : ∃ n, w = n + 8 := ⟨w - 8, by omega⟩
  rw [Nat.add_sub_cancel, toPoly, toPoly, Finset.sum_range_add, Finset.mul_sum]
  have hlow (i : ℕ) (hi : i ∈ Finset.range n) :
      (if (b.setWidth (n + 8) <<< n).getLsbD i then X ^ i else (0 : (ZMod 2)[X])) = 0 := by
    rw [Finset.mem_range] at hi
    simp [hi]
  have hbyte (i : ℕ) (hi : i ∈ Finset.range 8) :
      (if (b.setWidth (n + 8) <<< n).getLsbD (n + i) then X ^ (n + i) else (0 : (ZMod 2)[X])) =
        X ^ n * if b.getLsbD i then X ^ i else 0 := by
    rw [Finset.mem_range] at hi
    rw [mul_ite, mul_zero, ← pow_add]
    simp [hi]
  rw [Finset.sum_congr rfl hlow, Finset.sum_congr rfl hbyte, Finset.sum_const_zero, zero_add]

theorem toPoly_byteUp (hw : 8 ≤ w) (poly r : BitVec w) (b : BitVec 8) :
    toPoly (byteUp poly r b) = (X ^ 8 * toPoly r + X ^ w * toPoly b) %ₘ generator poly := by
  have hpow : (X : (ZMod 2)[X]) ^ 8 * X ^ (w - 8) = X ^ w := by
    rw [← pow_add, Nat.add_sub_cancel' hw]
  rw [byteUp, toPoly_iterate_shiftUp, toPoly_xor, toPoly_setWidth_shiftLeft hw, mul_add,
    ← mul_assoc, hpow]

theorem message_append (data : List (BitVec 8)) (b : BitVec 8) :
    message (data ++ [b]) = X ^ 8 * message data + toPoly b := by
  rw [message, List.foldl_append]
  rfl

/-- The register holds the remainder of the message, behind which as many zeros stand as it has
bits, and before which stands what it held first. -/
theorem toPoly_foldl_byteUp (hw : 8 ≤ w) (poly r : BitVec w) (data : List (BitVec 8)) :
    toPoly (data.foldl (byteUp poly) r) =
      (X ^ (8 * data.length) * toPoly r + X ^ w * message data) %ₘ generator poly := by
  induction data using List.reverseRecOn with
  | nil => simpa [message] using toPoly_iterate_shiftUp poly r 0
  | append_singleton data b ih =>
    have hdiff (p q : (ZMod 2)[X]) : X ^ 8 * (p %ₘ generator poly) + q - (X ^ 8 * p + q) =
        X ^ 8 * (p %ₘ generator poly - p) := by ring
    rw [List.foldl_append, List.foldl_cons, List.foldl_nil, toPoly_byteUp hw, ih, message_append,
      List.length_append, List.length_singleton, mul_add, pow_add]
    have hmod : (X ^ (8 * data.length) * X ^ (8 * 1) * toPoly r + X ^ w * (X ^ 8 * message data +
        toPoly b) : (ZMod 2)[X]) = X ^ 8 * (X ^ (8 * data.length) * toPoly r +
          X ^ w * message data) + X ^ w * toPoly b := by ring
    rw [hmod]
    refine modByMonic_eq_of_dvd_sub (monic_generator poly) ?_
    rw [hdiff]
    exact (dvd_modByMonic_sub _ _).mul_left _

end Polynomials

end Crc

/-! ## Checks -/

/-- The parameters of a check: the generator without its highest power and what the register holds
first, both with the highest power in the highest bit, whether the bits of the bytes and of the
result are taken in reversed order, and what is finally added. -/
structure Crc (w : ℕ) where
  poly : BitVec w
  init : BitVec w
  reflect : Bool
  xorOut : BitVec w

namespace Crc

variable {w : ℕ} (c : Crc w)

/-- The bits of a byte in the order in which they are divided. -/
def input (b : UInt8) : BitVec 8 := if c.reflect then b.toBitVec.reverse else b.toBitVec

/-- The register after the division. -/
def register (data : List UInt8) : BitVec w := (data.map c.input).foldl (byteUp c.poly) c.init

/-- The check of a message, bit by bit. -/
def compute (data : List UInt8) : BitVec w :=
  (if c.reflect then (c.register data).reverse else c.register data) ^^^ c.xorOut

/-- The remainder of a message. -/
noncomputable def remainder (data : List UInt8) : (ZMod 2)[X] :=
  (X ^ (8 * data.length) * toPoly c.init + X ^ w * message (data.map c.input)) %ₘ generator c.poly

theorem toPoly_register (hw : 8 ≤ w) (data : List UInt8) :
    toPoly (c.register data) = c.remainder data := by
  rw [register, remainder, toPoly_foldl_byteUp hw, List.length_map]

/-- The bits of a check in the order of the powers, without what was finally added. -/
def output (check : BitVec w) : BitVec w :=
  if c.reflect then (check ^^^ c.xorOut).reverse else check ^^^ c.xorOut

/-- A check stands for a remainder. -/
theorem toPoly_compute (hw : 8 ≤ w) (data : List UInt8) :
    toPoly (c.output (c.compute data)) = c.remainder data := by
  rw [output, compute, xor_cancel_right, ← c.toPoly_register hw]
  split_ifs
  · rw [BitVec.reverse_reverse_eq]
  · rfl

/-- With a reflected register, nothing has to be reversed. -/
theorem compute_reflect (hw : 8 ≤ w) (hreflect : c.reflect = true) (data : List UInt8) :
    c.compute data =
      data.foldl (fun r b ↦ byteDown c.poly.reverse r b.toBitVec) c.init.reverse ^^^ c.xorOut := by
  have hfold (data : List UInt8) (r : BitVec w) :
      ((data.map c.input).foldl (byteUp c.poly) r).reverse =
        data.foldl (fun r b ↦ byteDown c.poly.reverse r b.toBitVec) r.reverse := by
    induction data generalizing r with
    | nil => rfl
    | cons b data ih =>
      rw [List.map_cons, List.foldl_cons, ih, reverse_byteUp hw, input, if_pos hreflect,
        BitVec.reverse_reverse_eq, List.foldl_cons]
  rw [compute, if_pos hreflect, register, hfold]

/-- What the register holds first goes through the steps beside the message. -/
theorem foldl_byteDown_xor (poly r s : BitVec w) (data : List UInt8) :
    data.foldl (fun r b ↦ byteDown poly r b.toBitVec) (r ^^^ s) =
      (shiftDown poly)^[8 * data.length] r ^^^
        data.foldl (fun r b ↦ byteDown poly r b.toBitVec) s := by
  induction data generalizing r s with
  | nil => rfl
  | cons b data ih =>
    have hbyte : byteDown poly (r ^^^ s) b.toBitVec =
        (shiftDown poly)^[8] r ^^^ byteDown poly s b.toBitVec := by
      rw [byteDown, byteDown, xor_assoc, xorHom_shiftDown.iterate 8]
    rw [List.foldl_cons, hbyte, ih, ← Function.iterate_add_apply, List.length_cons,
      Nat.mul_succ, List.foldl_cons]

/-- The check of two messages together out of their checks. -/
theorem compute_append (hw : 8 ≤ w) (hreflect : c.reflect = true)
    (hinit : c.init.reverse = c.xorOut) (a b : List UInt8) :
    c.compute (a ++ b) =
      (shiftDown c.poly.reverse)^[8 * b.length] (c.compute a) ^^^ c.compute b := by
  rw [c.compute_reflect hw hreflect, c.compute_reflect hw hreflect, c.compute_reflect hw hreflect,
    hinit, List.foldl_append]
  let poly := c.poly.reverse
  let r := a.foldl (fun r b ↦ byteDown poly r b.toBitVec) c.xorOut
  calc b.foldl (fun r b ↦ byteDown poly r b.toBitVec) r ^^^ c.xorOut
      = b.foldl (fun r b ↦ byteDown poly r b.toBitVec) ((r ^^^ c.xorOut) ^^^ c.xorOut) ^^^
          c.xorOut := by rw [xor_cancel_right]
    _ = (shiftDown poly)^[8 * b.length] (r ^^^ c.xorOut) ^^^
          (b.foldl (fun r b ↦ byteDown poly r b.toBitVec) c.xorOut ^^^ c.xorOut) := by
      rw [foldl_byteDown_xor, xor_assoc]

theorem compute_of_not_reflect (hreflect : c.reflect = false) (data : List UInt8) :
    c.compute data = data.foldl (fun r b ↦ byteUp c.poly r b.toBitVec) c.init ^^^ c.xorOut := by
  have hinput : c.input = UInt8.toBitVec := by
    funext b
    rw [input, hreflect]
    rfl
  rw [compute, hreflect, register, hinput, List.foldl_map]
  rfl

end Crc

end PxcCore.Lib
