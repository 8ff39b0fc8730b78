import Mathlib

/-!
# UTF-8 output

`append_utf8_character_unsafe` of `utf8.cpp`, the one UTF-8 writer the JSON parser calls, and the
notion of a valid UTF-8 string it is compared with.  Validity is stated against Lean's own encoder
`String.utf8EncodeChar`, so that nothing in it is read off the code.
-/

namespace PxcCore.Utf8

/-! ## Masks and shifts as arithmetic -/

theorem and_3f (n : Nat) : n &&& 0x3f = n % 64 := Nat.and_two_pow_sub_one_eq_mod n 6

theorem and_1f (n : Nat) : n &&& 0x1f = n % 32 := Nat.and_two_pow_sub_one_eq_mod n 5

theorem and_0f (n : Nat) : n &&& 0x0f = n % 16 := Nat.and_two_pow_sub_one_eq_mod n 4

theorem and_07 (n : Nat) : n &&& 0x07 = n % 8 := Nat.and_two_pow_sub_one_eq_mod n 3

theorem and_3ff (n : Nat) : n &&& 0x3ff = n % 1024 := Nat.and_two_pow_sub_one_eq_mod n 10

/-- Joining a high part with a low part that fits below it is addition. -/
theorem shiftLeft_or (i : Nat) {a b : Nat} (h : b < 2 ^ i) : (a <<< i) ||| b = a * 2 ^ i + b := by
  rw [← Nat.shiftLeft_add_eq_or_of_lt h, Nat.shiftLeft_eq]

/-- A mark in the high bits of a byte joined with a payload in its low bits. -/
theorem mark_or {i a b : Nat} (h : b < 2 ^ i) : (a * 2 ^ i) ||| b = a * 2 ^ i + b := by
  rw [← shiftLeft_or i h, Nat.shiftLeft_eq]

theorem toNat_ofNat_of_lt {n : Nat} (h : n < 256) : (UInt8.ofNat n).toNat = n := by
  simpa using h

/-! ## The writer -/

/-- `append_utf8_character_unsafe`: the bytes written for `code`, each one truncated to eight
bits as the cast to `unsigned char` does.  Surrogates are not refused. -/
def appendUtf8CharacterUnsafe (code : Nat) : List UInt8 :=
  if code ≤ 0x7f then
    [UInt8.ofNat code]
  else if code ≤ 0x7ff then
    [UInt8.ofNat (0xc0 ||| (code >>> 6)), UInt8.ofNat (0x80 ||| (code &&& 0x3f))]
  else if code ≤ 0xffff then
    [UInt8.ofNat (0xe0 ||| (code >>> 12)), UInt8.ofNat (0x80 ||| ((code >>> 6) &&& 0x3f)),
      UInt8.ofNat (0x80 ||| (code &&& 0x3f))]
  else
    [UInt8.ofNat (0xf0 ||| (code >>> 18)), UInt8.ofNat (0x80 ||| ((code >>> 12) &&& 0x3f)),
      UInt8.ofNat (0x80 ||| ((code >>> 6) &&& 0x3f)), UInt8.ofNat (0x80 ||| (code &&& 0x3f))]

theorem or_80 {n : Nat} : 0x80 ||| (n &&& 0x3f) = 0x80 + n % 64 := by
  rw [and_3f]
  exact mark_or (i := 6) (a := 2) (Nat.mod_lt _ (by decide))

theorem or_c0 {n : Nat} (h : n < 32) : 0xc0 ||| n = 0xc0 + n := mark_or (i := 5) (a := 6) h

theorem or_e0 {n : Nat} (h : n < 16) : 0xe0 ||| n = 0xe0 + n := mark_or (i := 4) (a := 14) h

theorem or_f0 {n : Nat} (h : n < 8) : 0xf0 ||| n = 0xf0 + n := mark_or (i := 3) (a := 30) h

theorem shr_6 (n : Nat) : n >>> 6 = n / 64 := Nat.shiftRight_eq_div_pow n 6

theorem shr_12 (n : Nat) : n >>> 12 = n / 4096 := Nat.shiftRight_eq_div_pow n 12

theorem shr_18 (n : Nat) : n >>> 18 = n / 262144 := Nat.shiftRight_eq_div_pow n 18

theorem append_one {n : Nat} (h : n ≤ 0x7f) :
    appendUtf8CharacterUnsafe n = [UInt8.ofNat n] := by
  simp [appendUtf8CharacterUnsafe, h]

theorem append_two {n : Nat} (h : 0x7f < n) (h' : n ≤ 0x7ff) :
    appendUtf8CharacterUnsafe n =
      [UInt8.ofNat (0xc0 + n / 64), UInt8.ofNat (0x80 + n % 64)] := by
  rw [appendUtf8CharacterUnsafe, if_neg (by omega), if_pos h', or_80, shr_6, or_c0 (by omega)]

theorem append_three {n : Nat} (h : 0x7ff < n) (h' : n ≤ 0xffff) :
    appendUtf8CharacterUnsafe n =
      [UInt8.ofNat (0xe0 + n / 4096), UInt8.ofNat (0x80 + n / 64 % 64),
        UInt8.ofNat (0x80 + n % 64)] := by
  rw [appendUtf8CharacterUnsafe, if_neg (by omega), if_neg (by omega), if_pos h', or_80, or_80,
    shr_6, shr_12, or_e0 (by omega)]

theorem append_four {n : Nat} (h : 0xffff < n) (h' : n < 0x200000) :
    appendUtf8CharacterUnsafe n =
      [UInt8.ofNat (0xf0 + n / 262144), UInt8.ofNat (0x80 + n / 4096 % 64),
        UInt8.ofNat (0x80 + n / 64 % 64), UInt8.ofNat (0x80 + n % 64)] := by
  rw [appendUtf8CharacterUnsafe, if_neg (by omega), if_neg (by omega), if_neg (by omega), or_80,
    or_80, or_80, shr_6, shr_12, shr_18, or_f0 (by omega)]

/-- At most four bytes are written, fewer than the escape they are decoded from takes. -/
theorem append_length_le_four (n : Nat) : (appendUtf8CharacterUnsafe n).length ≤ 4 := by
  unfold appendUtf8CharacterUnsafe
  split_ifs <;> simp

/-! ## Valid UTF-8 -/

/-- A byte string is valid UTF-8 when it is the encoding of a list of Unicode scalar values. -/
def Valid (s : List UInt8) : Prop :=
  ∃ cs : List Char, s = cs.flatMap String.utf8EncodeChar

theorem toNat_lt (c : Char) : c.toNat < 0x110000 := by
  have h := c.valid
  simp only [UInt32.isValidChar, Nat.isValidChar] at h
  change c.val.toNat < _
  omega

/-- A scalar value is not a surrogate. -/
theorem not_surrogate (c : Char) : ¬(0xD7FF < c.toNat ∧ c.toNat < 0xE000) := by
  have h := c.valid
  simp only [UInt32.isValidChar, Nat.isValidChar] at h
  change ¬(_ < c.val.toNat ∧ c.val.toNat < _)
  omega

/-- On scalar values the writer is the standard encoder. -/
theorem append_toNat (c : Char) :
    appendUtf8CharacterUnsafe c.toNat = String.utf8EncodeChar c := by
  have hlt := toNat_lt c
  have hv : c.val.toNat = c.toNat := rfl
  simp only [String.utf8EncodeChar, hv]
  by_cases h1 : c.toNat ≤ 0x7f
  · rw [if_pos h1, append_one h1]
  by_cases h2 : c.toNat ≤ 0x7ff
  · rw [if_neg h1, if_pos h2, append_two (by omega) h2, Nat.mod_eq_of_lt (b := 32) (by omega),
      Nat.add_comm, Nat.add_comm 0x80]
  by_cases h3 : c.toNat ≤ 0xffff
  · rw [if_neg h1, if_neg h2, if_pos h3, append_three (by omega) h3,
      Nat.mod_eq_of_lt (b := 16) (by omega), Nat.add_comm, Nat.add_comm 0x80, Nat.add_comm 0x80]
  · rw [if_neg h1, if_neg h2, if_neg h3, append_four (by omega) (by omega),
      Nat.mod_eq_of_lt (b := 8) (by omega), Nat.add_comm, Nat.add_comm 0x80, Nat.add_comm 0x80,
      Nat.add_comm 0x80]

theorem Valid.nil : Valid [] := ⟨[], rfl⟩

/-- A character in front of valid text gives valid text. -/
theorem Valid.cons (c : Char) {s : List UInt8} (h : Valid s) :
    Valid (String.utf8EncodeChar c ++ s) := by
  obtain ⟨cs, rfl⟩ := h
  exact ⟨c :: cs, rfl⟩

end PxcCore.Utf8
