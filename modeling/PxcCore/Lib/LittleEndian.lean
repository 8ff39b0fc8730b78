import Mathlib

/-!
# Little-endian numbers

Natural numbers as byte strings of a fixed width, the lowest byte first.
-/

namespace PxcCore.Lib

/-- The lowest `n` bytes of a number. -/
def leBytes : ℕ → ℕ → List UInt8
  | 0, _ => []
  | n + 1, x => UInt8.ofNat x :: leBytes n (x / 256)

/-- The number that bytes stand for. -/
def ofLe : List UInt8 → ℕ
  | [] => 0
  | b :: bytes => b.toNat + 256 * ofLe bytes

@[simp] theorem length_leBytes (n x : ℕ) : (leBytes n x).length = n := by
  induction n generalizing x with
  | zero => rfl
  | succ n ih => rw [leBytes, List.length_cons, ih]

theorem ofLe_leBytes (n x : ℕ) : ofLe (leBytes n x) = x % 256 ^ n := by
  induction n generalizing x with
  | zero => rw [leBytes, ofLe, pow_zero, Nat.mod_one]
  | succ n ih =>
    have h8 : (UInt8.ofNat x).toNat = x % 256 := UInt8.toNat_ofNat'
    rw [leBytes, ofLe, ih, h8, pow_succ', Nat.mod_mul]

theorem ofLe_leBytes_of_lt {n x : ℕ} (h : x < 256 ^ n) : ofLe (leBytes n x) = x := by
  rw [ofLe_leBytes, Nat.mod_eq_of_lt h]

theorem ofLe_lt (bytes : List UInt8) : ofLe bytes < 256 ^ bytes.length := by
  induction bytes with
  | nil => exact Nat.one_pos
  | cons b bytes ih =>
    have := b.toNat_lt
    rw [ofLe, List.length_cons, pow_succ']
    omega

theorem leBytes_ofLe (bytes : List UInt8) : leBytes bytes.length (ofLe bytes) = bytes := by
  induction bytes with
  | nil => rfl
  | cons b bytes ih =>
    have hb : UInt8.ofNat (b.toNat + 256 * ofLe bytes) = b := by
      rw [← UInt8.toNat_inj]
      have := b.toNat_lt
      show (b.toNat + 256 * ofLe bytes) % 256 = b.toNat
      omega
    have hdiv : (b.toNat + 256 * ofLe bytes) / 256 = ofLe bytes := by
      have := b.toNat_lt
      omega
    rw [List.length_cons, ofLe, leBytes, hb, hdiv, ih]

/-- The bytes of an exclusive or. -/
theorem leBytes_xor (n x y : ℕ) :
    leBytes n (x ^^^ y) = List.zipWith (· ^^^ ·) (leBytes n x) (leBytes n y) := by
  induction n generalizing x y with
  | zero => rfl
  | succ n ih =>
    have hbyte : UInt8.ofNat (x ^^^ y) = UInt8.ofNat x ^^^ UInt8.ofNat y :=
      UInt8.ofNat_xor x y
    have hdiv : (x ^^^ y) / 256 = x / 256 ^^^ y / 256 := Nat.xor_div_two_pow (n := 8)
    rw [leBytes, leBytes, leBytes, List.zipWith_cons_cons, hbyte, hdiv, ih]

theorem ofLe_replicate (n : ℕ) : ofLe (List.replicate n 0) = 0 := by
  induction n with
  | zero => rfl
  | succ n ih =>
    rw [List.replicate_succ, ofLe, ih]
    rfl

end PxcCore.Lib
