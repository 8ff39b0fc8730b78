import PxcCore.Lib.Result

/-!
# Base64

`base64.cpp`, with both alphabets: an encoder, a decoder and a checker.
-/

namespace PxcCore.Base64

open Lib

/-! ## Definitions -/

/-- The bytes of an ASCII text. -/
def ascii (s : String) : List UInt8 := s.toList.map fun c ↦ UInt8.ofNat c.toNat

/-- `get_characters` -/
def getCharacters (isUrl : Bool) : List UInt8 :=
  if isUrl then ascii "ABCDEFGHIJKLMNOPQRSTUVWXYZabcdefghijklmnopqrstuvwxyz0123456789-_"
  else ascii "ABCDEFGHIJKLMNOPQRSTUVWXYZabcdefghijklmnopqrstuvwxyz0123456789+/"

/-- `characters[value]` -/
def character (isUrl : Bool) (value : ℕ) : UInt8 := (getCharacters isUrl).getD value 0

/-- `get_character_table`: the place of a character, which is 64 if it is not one of them. -/
def characterTable (isUrl : Bool) (c : UInt8) : ℕ := (getCharacters isUrl).idxOf c

/-- The byte that fills the last group. -/
def pad : UInt8 := 61

/-- `base64_encode_impl` -/
def encodeImpl (isUrl : Bool) : List UInt8 → List UInt8
  | [] => []
  | [x] =>
    let c := x.toNat <<< 16
    [character isUrl (c >>> 18), character isUrl ((c >>> 12) &&& 63)] ++
      if isUrl then [] else [pad, pad]
  | [x, y] =>
    let c := x.toNat <<< 16 ||| y.toNat <<< 8
    [character isUrl (c >>> 18), character isUrl ((c >>> 12) &&& 63),
      character isUrl ((c >>> 6) &&& 63)] ++ if isUrl then [] else [pad]
  | x :: y :: z :: input =>
    let c := x.toNat <<< 16 ||| y.toNat <<< 8 ||| z.toNat
    [character isUrl (c >>> 18), character isUrl ((c >>> 12) &&& 63),
      character isUrl ((c >>> 6) &&& 63), character isUrl (c &&& 63)] ++ encodeImpl isUrl input

/-- `base64_encode` -/
def base64Encode (input : List UInt8) : List UInt8 := encodeImpl false input

/-- `base64url_encode` -/
def base64urlEncode (input : List UInt8) : List UInt8 := encodeImpl true input

/-- The loops that remove the padding, and its length. -/
def stripPadding (base64 : List UInt8) : List UInt8 × ℕ :=
  let stripped := base64.rdropWhile (· = pad)
  (stripped, base64.length - stripped.length)

/-- `base64_drop_padding` -/
def dropPadding (isUrl : Bool) (base64 : List UInt8) : Except String (List UInt8) :=
  let (base64, paddingLength) := stripPadding base64
  if paddingLength ≥ 3 then .error "Wrong string padding"
  else if (!isUrl ∨ paddingLength > 0) ∧ (base64.length + paddingLength) &&& 3 ≠ 0 then
    .error "Wrong padding length"
  else if isUrl ∧ base64.length &&& 3 = 1 then .error "Wrong string length"
  else .ok base64

/-- The inner loop of `do_base64_decode_impl`, where `left` is `4 - t`. -/
def readGroup (isUrl : Bool) : ℕ → List UInt8 → Except String ℕ
  | _, [] => .ok 0
  | left, x :: group =>
    let value := characterTable isUrl x
    if value = 64 then .error "Wrong character in the string"
    else do
      let c ← readGroup isUrl (left - 1) group
      return value <<< ((left - 1) * 6) ||| c

/-- What `do_base64_decode_impl` writes for one group. -/
def decodeGroup (isUrl : Bool) (group : List UInt8) : Except String (List UInt8) := do
  let c ← readGroup isUrl 4 group
  if group.length = 2 then
    if c &&& (1 <<< 16 - 1) ≠ 0 then throw "Wrong padding in the string"
    return [UInt8.ofNat (c >>> 16)]
  else if group.length = 3 then
    if c &&& (1 <<< 8 - 1) ≠ 0 then throw "Wrong padding in the string"
    return [UInt8.ofNat (c >>> 16), UInt8.ofNat (c >>> 8)]
  else return [UInt8.ofNat (c >>> 16), UInt8.ofNat (c >>> 8), UInt8.ofNat c]

/-- `do_base64_decode_impl` -/
def doDecode (isUrl : Bool) : List UInt8 → Except String (List UInt8)
  | [] => .ok []
  | [a] => decodeGroup isUrl [a]
  | [a, b] => decodeGroup isUrl [a, b]
  | [a, b, c] => decodeGroup isUrl [a, b, c]
  | a :: b :: c :: d :: base64 => do
    let first ← decodeGroup isUrl [a, b, c, d]
    let rest ← doDecode isUrl base64
    return first ++ rest

/-- `base64_decode_impl` -/
def decodeImpl (isUrl : Bool) (base64 : List UInt8) : Except String (List UInt8) := do
  let base64 ← dropPadding isUrl base64
  doDecode isUrl base64

/-- `base64_decode` -/
def base64Decode (base64 : List UInt8) : Except String (List UInt8) := decodeImpl false base64

/-- `base64url_decode` -/
def base64urlDecode (base64 : List UInt8) : Except String (List UInt8) := decodeImpl true base64

/-- The value of the last character. -/
def lastValue (isUrl : Bool) (input : List UInt8) : ℕ :=
  characterTable isUrl (input.getLastD 0)

/-- `is_base64_impl` -/
def isBase64Impl (isUrl : Bool) (input : List UInt8) : Bool :=
  let (input, paddingLength) := stripPadding input
  if paddingLength ≥ 3 then false
  else if (!isUrl ∨ paddingLength > 0) ∧ (input.length + paddingLength) &&& 3 ≠ 0 then false
  else if isUrl ∧ input.length &&& 3 = 1 then false
  else if ∃ c ∈ input, characterTable isUrl c = 64 then false
  else if input.length &&& 3 = 2 ∧ lastValue isUrl input &&& 15 ≠ 0 then false
  else if input.length &&& 3 = 3 ∧ lastValue isUrl input &&& 3 ≠ 0 then false
  else true

/-- `is_base64` -/
def isBase64 (input : List UInt8) : Bool := isBase64Impl false input

/-- `is_base64url` -/
def isBase64url (input : List UInt8) : Bool := isBase64Impl true input

/-! ## The alphabets -/

variable {isUrl : Bool} {a b c d : UInt8} {s out x : List UInt8}

theorem getCharacters_nodup (isUrl : Bool) : (getCharacters isUrl).Nodup := by
  cases isUrl <;> decide

theorem getCharacters_length (isUrl : Bool) : (getCharacters isUrl).length = 64 := by
  cases isUrl <;> rfl

theorem characterTable_le (isUrl : Bool) (c : UInt8) : characterTable isUrl c ≤ 64 :=
  getCharacters_length isUrl ▸ List.idxOf_le_length

theorem characterTable_pad (isUrl : Bool) : characterTable isUrl pad = 64 := by
  cases isUrl <;> decide

theorem characterTable_character {v : ℕ} (hv : v < 64) :
    characterTable isUrl (character isUrl v) = v := by
  have hv : v < (getCharacters isUrl).length := by rwa [getCharacters_length]
  rw [characterTable, character, List.getD_eq_getElem _ _ hv]
  exact (getCharacters_nodup isUrl).idxOf_getElem v hv

/-- A character of the alphabet is the one its value stands for. -/
theorem character_characterTable (hc : characterTable isUrl c ≠ 64) :
    character isUrl (characterTable isUrl c) = c := by
  have hv : characterTable isUrl c < (getCharacters isUrl).length := by
    have := characterTable_le isUrl c
    rw [getCharacters_length]
    omega
  rw [character, List.getD_eq_getElem _ _ hv]
  exact List.getElem_idxOf hv

theorem eq_character {v : ℕ} (hv : v < 64) :
    c = character isUrl v ↔ characterTable isUrl c = v := by
  constructor
  · rintro rfl
    exact characterTable_character hv
  · rintro rfl
    exact (character_characterTable (by omega)).symm

theorem character_ne_pad {v : ℕ} (hv : v < 64) : character isUrl v ≠ pad := by
  intro h
  have : characterTable isUrl (character isUrl v) = v := characterTable_character hv
  rw [h, characterTable_pad] at this
  omega

/-! ## One group -/

/-- The number that the first characters of a group stand for. -/
def weigh : ℕ → List ℕ → ℕ
  | _, [] => 0
  | left, v :: values => v * 2 ^ ((left - 1) * 6) + weigh (left - 1) values

theorem weigh_lt {left : ℕ} {values : List ℕ} (hlength : values.length ≤ left)
    (hlt : ∀ v ∈ values, v < 64) : weigh left values < 2 ^ (left * 6) := by
  induction values generalizing left with
  | nil => exact Nat.two_pow_pos _
  | cons v values ih =>
    obtain ⟨left, rfl⟩ : ∃ k, left = k + 1 := ⟨left - 1, by simp at hlength; omega⟩
    have hrest := @ih left (by simpa using hlength) fun v hv ↦ hlt v (by simp [hv])
    have hv : v + 1 ≤ 64 := hlt v (by simp)
    calc weigh (left + 1) (v :: values)
        < v * 2 ^ (left * 6) + 2 ^ (left * 6) := by simpa [weigh] using hrest
      _ = (v + 1) * 2 ^ (left * 6) := by ring
      _ ≤ 64 * 2 ^ (left * 6) := Nat.mul_le_mul_right _ hv
      _ = 2 ^ ((left + 1) * 6) := by ring

/-- The `|=` of the loop adds. -/
theorem shiftLeft_or_weigh {left v : ℕ} {group : List UInt8} (hlength : group.length ≤ left)
    (hgroup : ∀ x ∈ group, characterTable isUrl x ≠ 64) :
    v <<< (left * 6) ||| weigh left (group.map (characterTable isUrl)) =
      v * 2 ^ (left * 6) + weigh left (group.map (characterTable isUrl)) := by
  rw [← Nat.shiftLeft_add_eq_or_of_lt, Nat.shiftLeft_eq]
  refine weigh_lt (by simpa using hlength) ?_
  simp only [List.mem_map]
  rintro _ ⟨y, hy, rfl⟩
  exact lt_of_le_of_ne (characterTable_le isUrl y) (hgroup y hy)

/-- A group is read exactly if all its characters are in the alphabet. -/
theorem readGroup_eq_ok {left : ℕ} {group : List UInt8} (hlength : group.length ≤ left) {r : ℕ} :
    readGroup isUrl left group = .ok r ↔
      (∀ x ∈ group, characterTable isUrl x ≠ 64) ∧
        r = weigh left (group.map (characterTable isUrl)) := by
  induction group generalizing left r with
  | nil => simp [readGroup, weigh, eq_comm]
  | cons x group ih =>
    have hlength : group.length ≤ left - 1 := by simp at hlength; omega
    by_cases hx : characterTable isUrl x = 64
    · simp [readGroup, hx]
    · simp only [readGroup, hx, if_false, bind_eq_ok, ih hlength, pure_eq_ok, Except.ok.injEq,
        List.forall_mem_cons, not_false_eq_true, true_and, ne_eq, List.map_cons, weigh]
      constructor
      · rintro ⟨c, ⟨hgroup, rfl⟩, rfl⟩
        exact ⟨hgroup, shiftLeft_or_weigh hlength hgroup⟩
      · rintro ⟨hgroup, rfl⟩
        exact ⟨_, ⟨hgroup, rfl⟩, shiftLeft_or_weigh hlength hgroup⟩

theorem and_mask (c n : ℕ) : c &&& (1 <<< n - 1) = c % 2 ^ n := by
  rw [Nat.one_shiftLeft, Nat.and_two_pow_sub_one_eq_mod]

/-- What is written for a group is read off the number it stands for. -/
theorem decodeGroup_eq_ok {group : List UInt8} (hlength : group.length ≤ 4) :
    decodeGroup isUrl group = .ok out ↔ (∀ x ∈ group, characterTable isUrl x ≠ 64) ∧
      ∃ c, c = weigh 4 (group.map (characterTable isUrl)) ∧
      ((group.length = 2 → c % 65536 = 0) ∧ (group.length = 3 → c % 256 = 0) ∧
        out = if group.length = 2 then [UInt8.ofNat (c / 65536)]
          else if group.length = 3 then [UInt8.ofNat (c / 65536), UInt8.ofNat (c / 256)]
          else [UInt8.ofNat (c / 65536), UInt8.ofNat (c / 256), UInt8.ofNat c]) := by
  simp only [decodeGroup, bind_eq_ok, readGroup_eq_ok hlength, and_mask,
    Nat.shiftRight_eq_div_pow, and_assoc, exists_and_left, Nat.reducePow]
  refine and_congr_right fun _ ↦ exists_congr fun c ↦ and_congr_right fun _ ↦ ?_
  split_ifs with h₂ h h₃ h
  · simp [h₂, h]
  · simp [h₂, not_not.1 h, eq_comm]
  · simp [h₃, h]
  · simp [h₃, not_not.1 h, eq_comm]
  · simp [h₂, h₃, eq_comm]

theorem ofNat_eq_iff {v : ℕ} {x : UInt8} : UInt8.ofNat v = x ↔ v % 256 = x.toNat := by
  rw [← UInt8.toNat_inj, UInt8.toNat_ofNat']

/-- Two characters stand for one byte and four zero bits. -/
theorem decodeGroup_two : decodeGroup isUrl [a, b] = .ok out ↔
    ∃ x : UInt8, out = [x] ∧ a = character isUrl (x.toNat / 4) ∧
      b = character isUrl (x.toNat % 4 * 16) := by
  have ha := characterTable_le isUrl a
  have hb := characterTable_le isUrl b
  simp only [decodeGroup_eq_ok (show [a, b].length ≤ 4 by simp), weigh, List.forall_mem_cons,
    List.map_cons, List.map_nil]
  constructor
  · rintro ⟨⟨ha', hb', -⟩, c, hc, hzero, -, rfl⟩
    have hzero := hzero rfl
    obtain ⟨x, hx⟩ : ∃ x, x = UInt8.ofNat (c / 65536) := ⟨_, rfl⟩
    have hx' := ofNat_eq_iff.1 hx.symm
    refine ⟨x, by rw [hx]; rfl, ?_, ?_⟩
    · rw [eq_character (by omega)]
      omega
    · rw [eq_character (by omega)]
      omega
  · rintro ⟨x, rfl, ha, hb⟩
    have hx := x.toNat_lt
    rw [eq_character (by omega)] at ha hb
    refine ⟨⟨by omega, by omega, by simp⟩, _, rfl, fun _ ↦ by omega, by simp, ?_⟩
    rw [if_pos (by rfl), eq_comm, List.cons.injEq, ofNat_eq_iff]
    exact ⟨by omega, rfl⟩

/-- Three characters stand for two bytes and two zero bits. -/
theorem decodeGroup_three : decodeGroup isUrl [a, b, c] = .ok out ↔
    ∃ x y : UInt8, out = [x, y] ∧ a = character isUrl (x.toNat / 4) ∧
      b = character isUrl (x.toNat % 4 * 16 + y.toNat / 16) ∧
      c = character isUrl (y.toNat % 16 * 4) := by
  have ha := characterTable_le isUrl a
  have hb := characterTable_le isUrl b
  have hc := characterTable_le isUrl c
  simp only [decodeGroup_eq_ok (show [a, b, c].length ≤ 4 by simp), weigh, List.forall_mem_cons,
    List.map_cons, List.map_nil]
  constructor
  · rintro ⟨⟨ha', hb', hc', -⟩, n, hn, -, hzero, rfl⟩
    have hzero := hzero rfl
    obtain ⟨x, hx⟩ : ∃ x, x = UInt8.ofNat (n / 65536) := ⟨_, rfl⟩
    obtain ⟨y, hy⟩ : ∃ y, y = UInt8.ofNat (n / 256) := ⟨_, rfl⟩
    have hx' := ofNat_eq_iff.1 hx.symm
    have hy' := ofNat_eq_iff.1 hy.symm
    refine ⟨x, y, by rw [hx, hy]; rfl, ?_, ?_, ?_⟩
    · rw [eq_character (by omega)]
      omega
    · rw [eq_character (by omega)]
      omega
    · rw [eq_character (by omega)]
      omega
  · rintro ⟨x, y, rfl, ha, hb, hc⟩
    have hx := x.toNat_lt
    have hy := y.toNat_lt
    rw [eq_character (by omega)] at ha hb hc
    refine ⟨⟨by omega, by omega, by omega, by simp⟩, _, rfl, by simp, fun _ ↦ by omega, ?_⟩
    rw [if_neg (by simp), if_pos (by rfl), eq_comm, List.cons.injEq, List.cons.injEq,
      ofNat_eq_iff, ofNat_eq_iff]
    exact ⟨by omega, by omega, rfl⟩

/-- Four characters stand for three bytes. -/
theorem decodeGroup_four : decodeGroup isUrl [a, b, c, d] = .ok out ↔
    ∃ x y z : UInt8, out = [x, y, z] ∧ a = character isUrl (x.toNat / 4) ∧
      b = character isUrl (x.toNat % 4 * 16 + y.toNat / 16) ∧
      c = character isUrl (y.toNat % 16 * 4 + z.toNat / 64) ∧
      d = character isUrl (z.toNat % 64) := by
  have ha := characterTable_le isUrl a
  have hb := characterTable_le isUrl b
  have hc := characterTable_le isUrl c
  have hd := characterTable_le isUrl d
  simp only [decodeGroup_eq_ok (show [a, b, c, d].length ≤ 4 by simp), weigh,
    List.forall_mem_cons, List.map_cons, List.map_nil]
  constructor
  · rintro ⟨⟨ha', hb', hc', hd', -⟩, n, hn, -, -, rfl⟩
    obtain ⟨x, hx⟩ : ∃ x, x = UInt8.ofNat (n / 65536) := ⟨_, rfl⟩
    obtain ⟨y, hy⟩ : ∃ y, y = UInt8.ofNat (n / 256) := ⟨_, rfl⟩
    obtain ⟨z, hz⟩ : ∃ z, z = UInt8.ofNat n := ⟨_, rfl⟩
    have hx' := ofNat_eq_iff.1 hx.symm
    have hy' := ofNat_eq_iff.1 hy.symm
    have hz' := ofNat_eq_iff.1 hz.symm
    refine ⟨x, y, z, by rw [hx, hy, hz]; rfl, ?_, ?_, ?_, ?_⟩
    · rw [eq_character (by omega)]
      omega
    · rw [eq_character (by omega)]
      omega
    · rw [eq_character (by omega)]
      omega
    · rw [eq_character (by omega)]
      omega
  · rintro ⟨x, y, z, rfl, ha, hb, hc, hd⟩
    have hx := x.toNat_lt
    have hy := y.toNat_lt
    have hz := z.toNat_lt
    rw [eq_character (by omega)] at ha hb hc hd
    refine ⟨⟨by omega, by omega, by omega, by omega, by simp⟩, _, rfl, by simp, by simp, ?_⟩
    rw [if_neg (by simp), if_neg (by simp), eq_comm, List.cons.injEq, List.cons.injEq,
      List.cons.injEq, ofNat_eq_iff, ofNat_eq_iff, ofNat_eq_iff]
    exact ⟨by omega, by omega, by omega, rfl⟩

/-! ## All the groups -/

/-- The encoding without its padding. -/
def digits (isUrl : Bool) : List UInt8 → List UInt8
  | [] => []
  | [x] => [character isUrl (x.toNat / 4), character isUrl (x.toNat % 4 * 16)]
  | [x, y] => [character isUrl (x.toNat / 4), character isUrl (x.toNat % 4 * 16 + y.toNat / 16),
      character isUrl (y.toNat % 16 * 4)]
  | x :: y :: z :: input =>
    character isUrl (x.toNat / 4) :: character isUrl (x.toNat % 4 * 16 + y.toNat / 16) ::
      character isUrl (y.toNat % 16 * 4 + z.toNat / 64) :: character isUrl (z.toNat % 64) ::
        digits isUrl input

/-- The padding that makes a length a multiple of four. -/
def padding (length : ℕ) : List UInt8 := List.replicate ((4 - length % 4) % 4) pad

theorem digits_length (isUrl : Bool) (x : List UInt8) : (digits isUrl x).length % 4 ≠ 1 := by
  fun_induction digits isUrl x with
  | case1 | case2 x | case3 x y => simp
  | case4 x y z input ih =>
    simp only [List.length_cons]
    omega

theorem pad_notMem_digits (isUrl : Bool) (x : List UInt8) : pad ∉ digits isUrl x := by
  have hne {v : ℕ} (hv : v < 64) : ¬ pad = character isUrl v := (character_ne_pad hv).symm
  fun_induction digits isUrl x with
  | case1 => simp
  | case2 x =>
    have hx := x.toNat_lt
    simp [hne (v := x.toNat / 4) (by omega), hne (v := x.toNat % 4 * 16) (by omega)]
  | case3 x y =>
    have hx := x.toNat_lt
    have hy := y.toNat_lt
    simp [hne (v := x.toNat / 4) (by omega),
      hne (v := x.toNat % 4 * 16 + y.toNat / 16) (by omega),
      hne (v := y.toNat % 16 * 4) (by omega)]
  | case4 x y z input ih =>
    have hx := x.toNat_lt
    have hy := y.toNat_lt
    have hz := z.toNat_lt
    simp [hne (v := x.toNat / 4) (by omega),
      hne (v := x.toNat % 4 * 16 + y.toNat / 16) (by omega),
      hne (v := y.toNat % 16 * 4 + z.toNat / 64) (by omega),
      hne (v := z.toNat % 64) (by omega), ih]

theorem and_63 (c : ℕ) : c &&& 63 = c % 64 := Nat.and_two_pow_sub_one_eq_mod c 6

theorem join_two (x y : UInt8) :
    x.toNat <<< 16 ||| y.toNat <<< 8 = x.toNat * 65536 + y.toNat * 256 := by
  have hy := y.toNat_lt
  rw [← Nat.shiftLeft_add_eq_or_of_lt, Nat.shiftLeft_eq, Nat.shiftLeft_eq]
  rw [Nat.shiftLeft_eq]
  omega

theorem join_three (x y z : UInt8) : x.toNat <<< 16 ||| y.toNat <<< 8 ||| z.toNat =
    x.toNat * 65536 + y.toNat * 256 + z.toNat := by
  have hxy : x.toNat * 65536 + y.toNat * 256 = (x.toNat * 256 + y.toNat) <<< 8 := by
    rw [Nat.shiftLeft_eq]
    omega
  rw [join_two, hxy, ← Nat.shiftLeft_add_eq_or_of_lt z.toNat_lt]

/-- The encoder writes the digits, and pads them in the alphabet that is not for URLs. -/
theorem encodeImpl_eq (isUrl : Bool) (x : List UInt8) : encodeImpl isUrl x =
    digits isUrl x ++ if isUrl then [] else padding (digits isUrl x).length := by
  fun_induction digits isUrl x with
  | case1 => cases isUrl <;> rfl
  | case2 x =>
    have hx := x.toNat_lt
    simp only [encodeImpl, Nat.shiftLeft_eq, Nat.shiftRight_eq_div_pow, and_63]
    rw [show x.toNat * 2 ^ 16 / 2 ^ 18 = x.toNat / 4 by omega,
      show x.toNat * 2 ^ 16 / 2 ^ 12 % 64 = x.toNat % 4 * 16 by omega]
    rfl
  | case3 x y =>
    have hx := x.toNat_lt
    have hy := y.toNat_lt
    simp only [encodeImpl, join_two, Nat.shiftRight_eq_div_pow, and_63]
    rw [show (x.toNat * 65536 + y.toNat * 256) / 2 ^ 18 = x.toNat / 4 by omega,
      show (x.toNat * 65536 + y.toNat * 256) / 2 ^ 12 % 64 = x.toNat % 4 * 16 + y.toNat / 16 by
        omega,
      show (x.toNat * 65536 + y.toNat * 256) / 2 ^ 6 % 64 = y.toNat % 16 * 4 by omega]
    rfl
  | case4 x y z input ih =>
    have hx := x.toNat_lt
    have hy := y.toNat_lt
    have hz := z.toNat_lt
    have hpadding (n : ℕ) : padding (n + 1 + 1 + 1 + 1) = padding n := by
      simp [padding, add_assoc]
    simp only [encodeImpl, join_three, Nat.shiftRight_eq_div_pow, and_63, ih, List.length_cons,
      hpadding, List.cons_append, List.nil_append]
    rw [show (x.toNat * 65536 + y.toNat * 256 + z.toNat) / 2 ^ 18 = x.toNat / 4 by omega,
      show (x.toNat * 65536 + y.toNat * 256 + z.toNat) / 2 ^ 12 % 64 =
        x.toNat % 4 * 16 + y.toNat / 16 by omega,
      show (x.toNat * 65536 + y.toNat * 256 + z.toNat) / 2 ^ 6 % 64 =
        y.toNat % 16 * 4 + z.toNat / 64 by omega,
      show (x.toNat * 65536 + y.toNat * 256 + z.toNat) % 64 = z.toNat % 64 by omega]

/-- The decoder accepts exactly the digits of its result. -/
theorem doDecode_eq_ok (hlength : s.length % 4 ≠ 1) :
    doDecode isUrl s = .ok out ↔ s = digits isUrl out := by
  fun_induction doDecode isUrl s generalizing out with
  | case1 => rcases out with _ | ⟨x, _ | ⟨y, _ | ⟨z, out⟩⟩⟩ <;> simp [digits]
  | case2 a => simp at hlength
  | case3 a b =>
    rw [decodeGroup_two]
    rcases out with _ | ⟨x, _ | ⟨y, _ | ⟨z, out⟩⟩⟩ <;> simp [digits]
  | case4 a b c =>
    rw [decodeGroup_three]
    rcases out with _ | ⟨x, _ | ⟨y, _ | ⟨z, out⟩⟩⟩ <;> simp [digits]
  | case5 a b c d base64 ih =>
    have ih {out : List UInt8} := @ih out (by simp at hlength; omega)
    simp only [bind_eq_ok, decodeGroup_four, ih, pure_eq_ok, Except.ok.injEq]
    constructor
    · rintro ⟨_, ⟨x, y, z, rfl, rfl, rfl, rfl, rfl⟩, rest, rfl, rfl⟩
      rfl
    · intro h
      rcases out with _ | ⟨x, _ | ⟨y, _ | ⟨z, out⟩⟩⟩
      · simp [digits] at h
      · simp [digits] at h
      · simp [digits] at h
      · simp only [digits, List.cons.injEq] at h
        obtain ⟨ha, hb, hc, hd, rfl⟩ := h
        exact ⟨_, ⟨x, y, z, rfl, ha, hb, hc, hd⟩, out, rfl, rfl⟩

theorem and_15 (c : ℕ) : c &&& 15 = c % 16 := Nat.and_two_pow_sub_one_eq_mod c 4

theorem and_3 (c : ℕ) : c &&& 3 = c % 4 := Nat.and_two_pow_sub_one_eq_mod c 2

/-- A group is accepted if its characters are in the alphabet and its last bits are zero. -/
theorem exists_decodeGroup {group : List UInt8} (hlength : group.length ≤ 4) :
    (∃ out, decodeGroup isUrl group = .ok out) ↔ (∀ x ∈ group, characterTable isUrl x ≠ 64) ∧
      (group.length = 2 → weigh 4 (group.map (characterTable isUrl)) % 65536 = 0) ∧
      (group.length = 3 → weigh 4 (group.map (characterTable isUrl)) % 256 = 0) := by
  simp only [decodeGroup_eq_ok hlength, exists_and_left, exists_eq_left]
  simp

/-- What the checker asks of the characters. -/
def Checked (isUrl : Bool) (s : List UInt8) : Prop :=
  (∀ x ∈ s, characterTable isUrl x ≠ 64) ∧
    (s.length % 4 = 2 → lastValue isUrl s % 16 = 0) ∧
    (s.length % 4 = 3 → lastValue isUrl s % 4 = 0)

/-- The last group decides, and the groups before it are in the alphabet. -/
theorem checked_cons : Checked isUrl (a :: b :: c :: d :: s) ↔
    (∀ x ∈ [a, b, c, d], characterTable isUrl x ≠ 64) ∧ Checked isUrl s := by
  have hlength : (a :: b :: c :: d :: s).length % 4 = s.length % 4 := by simp [add_assoc]
  rw [Checked, Checked, hlength]
  rcases s with _ | ⟨e, s⟩
  · simp
  · have hlast : lastValue isUrl (a :: b :: c :: d :: e :: s) = lastValue isUrl (e :: s) := rfl
    rw [hlast, ← and_assoc (a := ∀ x ∈ [a, b, c, d], _), ← List.forall_mem_append]
    rfl

/-- The checker accepts exactly what the decoder accepts. -/
theorem exists_doDecode (hlength : s.length % 4 ≠ 1) :
    (∃ out, doDecode isUrl s = .ok out) ↔ Checked isUrl s := by
  fun_induction doDecode isUrl s with
  | case1 => simp [Checked]
  | case2 a => simp at hlength
  | case3 a b =>
    have hlast : lastValue isUrl [a, b] = characterTable isUrl b := rfl
    rw [exists_decodeGroup (by simp), Checked, hlast]
    refine and_congr_right fun _ ↦ and_congr (imp_congr Iff.rfl ?_) (by simp)
    simp only [List.map_cons, List.map_nil, weigh]
    omega
  | case4 a b c =>
    have hlast : lastValue isUrl [a, b, c] = characterTable isUrl c := rfl
    rw [exists_decodeGroup (by simp), Checked, hlast]
    refine and_congr_right fun _ ↦ and_congr (by simp) (imp_congr Iff.rfl ?_)
    simp only [List.map_cons, List.map_nil, weigh]
    omega
  | case5 a b c d base64 ih =>
    have hgroup : (∃ out, decodeGroup isUrl [a, b, c, d] = .ok out) ↔
        ∀ x ∈ [a, b, c, d], characterTable isUrl x ≠ 64 := by
      rw [exists_decodeGroup (by simp)]
      simp
    rw [checked_cons, ← ih (by simp at hlength; omega), ← hgroup]
    simp only [bind_eq_ok, pure_eq_ok, Except.ok.injEq]
    constructor
    · rintro ⟨_, first, hfirst, rest, hrest, rfl⟩
      exact ⟨⟨first, hfirst⟩, rest, hrest⟩
    · rintro ⟨⟨first, hfirst⟩, rest, hrest⟩
      exact ⟨_, first, hfirst, rest, hrest, rfl⟩

/-! ## The padding -/

/-- What the two loops remove is padding. -/
theorem stripPadding_append (s : List UInt8) :
    s = (stripPadding s).1 ++ List.replicate (stripPadding s).2 pad := by
  have hs := List.rdropWhile_append_rtakeWhile (p := fun c ↦ decide (c = pad)) (l := s)
  have htail : s.rtakeWhile (fun c ↦ decide (c = pad)) =
      List.replicate (stripPadding s).2 pad := by
    rw [List.eq_replicate_iff]
    refine ⟨?_, fun c hc ↦ by simpa using List.mem_rtakeWhile_imp hc⟩
    have hlength := congrArg List.length hs
    rw [List.length_append] at hlength
    rw [stripPadding]
    omega
  rw [← htail]
  exact hs.symm

/-- A string is split before its padding. -/
theorem stripPadding_replicate (hs : pad ∉ s) (n : ℕ) :
    stripPadding (s ++ List.replicate n pad) = (s, n) := by
  have hdrop : (s ++ List.replicate n pad).rdropWhile (fun c ↦ decide (c = pad)) = s := by
    induction n with
    | zero =>
      rw [List.replicate_zero, List.append_nil, List.rdropWhile_eq_self_iff]
      intro hne h
      exact hs (of_decide_eq_true h ▸ List.getLast_mem hne)
    | succ n ih =>
      rw [List.replicate_succ', ← List.append_assoc, List.rdropWhile_concat_pos _ _ _ (by simp), ih]
  rw [stripPadding, hdrop]
  simp

/-- The lengths that the decoder and the checker ask for. -/
def Padded (isUrl : Bool) (length n : ℕ) : Prop :=
  n < 3 ∧ (isUrl = false ∨ 0 < n → (length + n) % 4 = 0) ∧ length % 4 ≠ 1

/-- The three tests of the padding, in their order. -/
theorem padded_iff {length n : ℕ} : Padded isUrl length n ↔
    ¬ n ≥ 3 ∧ ¬ (((!isUrl) = true ∨ n > 0) ∧ (length + n) &&& 3 ≠ 0) ∧
      ¬ (isUrl = true ∧ length &&& 3 = 1) := by
  rw [Padded, and_3, and_3]
  cases isUrl
  · simp
    omega
  · simp

theorem dropPadding_eq_ok : dropPadding isUrl s = .ok out ↔
    out = (stripPadding s).1 ∧ Padded isUrl out.length (stripPadding s).2 := by
  rw [padded_iff, dropPadding]
  dsimp only
  constructor
  · intro h
    split_ifs at h with h₁ h₂ h₃
    cases h
    exact ⟨rfl, h₁, h₂, h₃⟩
  · rintro ⟨rfl, h₁, h₂, h₃⟩
    rw [if_neg h₁, if_neg h₂, if_neg h₃]

theorem isBase64Impl_eq_true : isBase64Impl isUrl s = true ↔
    Padded isUrl (stripPadding s).1.length (stripPadding s).2 ∧
      Checked isUrl (stripPadding s).1 := by
  rw [padded_iff, Checked, isBase64Impl]
  simp only [and_15, and_3]
  constructor
  · intro h
    split_ifs at h with h₁ h₂ h₃ h₄ h₅ h₆
    refine ⟨⟨h₁, h₂, h₃⟩, fun c hc hvalue ↦ h₄ ⟨c, hc, hvalue⟩, fun hlength ↦ ?_, fun hlength ↦ ?_⟩
    · exact not_not.1 fun hne ↦ h₅ ⟨hlength, hne⟩
    · exact not_not.1 fun hne ↦ h₆ ⟨hlength, hne⟩
  · rintro ⟨⟨h₁, h₂, h₃⟩, h₄, h₅, h₆⟩
    rw [if_neg h₁, if_neg h₂, if_neg h₃, if_neg fun ⟨c, hc, hvalue⟩ ↦ h₄ c hc hvalue,
      if_neg fun ⟨hlength, hne⟩ ↦ hne (h₅ hlength), if_neg fun ⟨hlength, hne⟩ ↦ hne (h₆ hlength)]

/-! ## Encoding, decoding and checking -/

/-- A string is decoded to what it is the padded digits of. -/
theorem decodeImpl_eq_ok : decodeImpl isUrl s = .ok x ↔
    ∃ n, Padded isUrl (digits isUrl x).length n ∧ s = digits isUrl x ++ List.replicate n pad := by
  simp only [decodeImpl, bind_eq_ok, dropPadding_eq_ok]
  constructor
  · rintro ⟨d, ⟨hd, hpadded⟩, hdecode⟩
    rw [doDecode_eq_ok hpadded.2.2] at hdecode
    subst hdecode
    exact ⟨_, hpadded, hd ▸ stripPadding_append s⟩
  · rintro ⟨n, hpadded, rfl⟩
    rw [stripPadding_replicate (pad_notMem_digits isUrl x)]
    exact ⟨_, ⟨rfl, hpadded⟩, (doDecode_eq_ok hpadded.2.2).2 rfl⟩

/-- The checker accepts what the decoder accepts. -/
theorem isBase64Impl_iff : isBase64Impl isUrl s = true ↔ ∃ x, decodeImpl isUrl s = .ok x := by
  rw [isBase64Impl_eq_true]
  simp only [decodeImpl, bind_eq_ok, dropPadding_eq_ok]
  constructor
  · rintro ⟨hpadded, hchecked⟩
    obtain ⟨x, hx⟩ := (exists_doDecode hpadded.2.2).2 hchecked
    exact ⟨x, _, ⟨rfl, hpadded⟩, hx⟩
  · rintro ⟨x, _, ⟨rfl, hpadded⟩, hx⟩
    exact ⟨hpadded, (exists_doDecode hpadded.2.2).1 ⟨x, hx⟩⟩

/-- The padding that makes the length a multiple of four is the only one of its alphabet. -/
theorem padded_false {n : ℕ} (hlength : s.length % 4 ≠ 1) :
    Padded false s.length n ↔ List.replicate n pad = padding s.length := by
  rw [padding, List.replicate_inj, Padded]
  simp
  omega

theorem padded_true {n : ℕ} (hlength : s.length % 4 ≠ 1) :
    Padded true s.length n ↔ n = 0 ∨ List.replicate n pad = padding s.length := by
  rw [padding, List.replicate_inj, Padded]
  simp
  omega

/-- A text with the padding that its length asks for. -/
def withPadding (s : List UInt8) : List UInt8 := s ++ padding s.length

theorem base64Decode_eq_ok : base64Decode s = .ok x ↔ s = base64Encode x := by
  rw [base64Decode, base64Encode, encodeImpl_eq, decodeImpl_eq_ok]
  simp only [padded_false (digits_length false x), Bool.false_eq_true, if_false]
  constructor
  · rintro ⟨n, hn, rfl⟩
    rw [hn]
  · rintro rfl
    exact ⟨_, rfl, rfl⟩

theorem base64urlDecode_eq_ok : base64urlDecode s = .ok x ↔
    s = base64urlEncode x ∨ s = withPadding (base64urlEncode x) := by
  rw [base64urlDecode, base64urlEncode, encodeImpl_eq, decodeImpl_eq_ok]
  simp only [padded_true (digits_length true x), if_true, List.append_nil, withPadding]
  constructor
  · rintro ⟨n, rfl | hn, rfl⟩
    · exact .inl (by simp)
    · exact .inr (by rw [hn])
  · rintro (h | h)
    · exact ⟨0, .inl rfl, by simpa using h⟩
    · exact ⟨_, .inr rfl, h⟩

/-- Decoding inverts encoding, only encodings are decoded, and the checkers accept just those. -/
theorem base64_exact : (∀ x, base64Decode (base64Encode x) = .ok x) ∧
    (∀ x, base64urlDecode (base64urlEncode x) = .ok x) ∧
    (∀ s x, base64Decode s = .ok x → s = base64Encode x) ∧
    (∀ s x, base64urlDecode s = .ok x →
      s = base64urlEncode x ∨ s = withPadding (base64urlEncode x)) ∧
    (∀ s, isBase64 s = true ↔ ∃ x, base64Decode s = .ok x) ∧
    ∀ s, isBase64url s = true ↔ ∃ x, base64urlDecode s = .ok x :=
  ⟨fun _ ↦ base64Decode_eq_ok.2 rfl, fun _ ↦ base64urlDecode_eq_ok.2 (.inl rfl),
    fun _ _ ↦ base64Decode_eq_ok.1, fun _ _ ↦ base64urlDecode_eq_ok.1,
    fun _ ↦ isBase64Impl_iff, fun _ ↦ isBase64Impl_iff⟩

end PxcCore.Base64
