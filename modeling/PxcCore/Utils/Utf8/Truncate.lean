import PxcCore.Utils.Utf8.Check

/-!
# Cutting UTF-8

`utf8_length`, `utf8_truncate` and `utf8_substr` of `utf8.h`, and what `utf8.cpp` has for lengths in
UTF-16 code units.  They look at the first bytes of characters only.
-/

namespace PxcCore.Utf8

universe u

/-! ## Definitions -/

/-- `is_utf8_character_first_code_unit` -/
def isUtf8CharacterFirstCodeUnit (c : UInt8) : Bool := c.toNat &&& 0xc0 ≠ 0x80

/-- `utf8_length` -/
def utf8Length (str : List UInt8) : ℕ :=
  str.foldl (fun result c ↦ result + (isUtf8CharacterFirstCodeUnit c).toNat) 0

/-- `utf8_utf16_length` -/
def utf8Utf16Length (str : List UInt8) : ℕ :=
  str.foldl (fun result c ↦ result + ((isUtf8CharacterFirstCodeUnit c).toNat +
    (decide (c.toNat &&& 0xf8 = 0xf0)).toNat)) 0

/-- The loops that truncate: where they cut.  At the first byte of a character they either stop or
go on with a smaller `length`. -/
def cutPosition {β : Type u} (spend : UInt8 → β → Option β) : List UInt8 → β → ℕ
  | [], _ => 0
  | c :: str, length =>
    if isUtf8CharacterFirstCodeUnit c then
      match spend c length with
      | none => 0
      | some length => cutPosition spend str length + 1
    else cutPosition spend str length + 1

/-- How the loop of `utf8_truncate` counts. -/
def spendCharacter (_ : UInt8) (length : ℕ) : Option ℕ :=
  if length = 0 then none else some (length - 1)

/-- `utf8_truncate` -/
def utf8Truncate (str : List UInt8) (length : ℕ) : List UInt8 :=
  if str.length > length then str.take (cutPosition spendCharacter str length) else str

/-- `utf8_substr(T, size_t)` -/
def utf8SubstrFrom (str : List UInt8) (offset : ℕ) : List UInt8 :=
  if offset = 0 then str else str.drop (utf8Truncate str offset).length

/-- `utf8_substr(T, size_t, size_t)` -/
def utf8Substr (str : List UInt8) (offset length : ℕ) : List UInt8 :=
  utf8Truncate (utf8SubstrFrom str offset) length

/-- How the loop of `utf8_utf16_truncate` counts, in a `size_t`. -/
def spendCodeUnits (c : UInt8) (length : UInt64) : Option UInt64 :=
  if length ≤ 0 then none
  else
    let length := length - 1
    -- a character of four bytes takes one more, even if nothing is left
    if c ≥ 0xf0 then some (length - 1) else some length

/-- `utf8_utf16_truncate` -/
def utf8Utf16Truncate (str : List UInt8) (length : UInt64) : List UInt8 :=
  str.take (cutPosition spendCodeUnits str length)

/-- `utf8_utf16_substr(Slice, size_t)` -/
def utf8Utf16SubstrFrom (str : List UInt8) (offset : UInt64) : List UInt8 :=
  if offset = 0 then str else str.drop (utf8Utf16Truncate str offset).length

/-- `utf8_utf16_substr(Slice, size_t, size_t)` -/
def utf8Utf16Substr (str : List UInt8) (offset length : UInt64) : List UInt8 :=
  utf8Utf16Truncate (utf8Utf16SubstrFrom str offset) length

/-! ## Characters -/

/-- The valid string of some characters. -/
def encode (cs : List Char) : List UInt8 := cs.flatMap String.utf8EncodeChar

/-- The first byte of a character. -/
def firstByte (c : Char) : UInt8 := (String.utf8EncodeChar c).headD 0

/-- How many UTF-16 code units a character takes. -/
def codeUnits (c : Char) : ℕ := if c.toNat < 0x10000 then 1 else 2

/-- The length of a text in UTF-16 code units. -/
def utf16Length (cs : List Char) : ℕ := (cs.map codeUnits).sum

@[simp] theorem encode_nil : encode [] = [] := rfl

@[simp] theorem encode_cons (c : Char) (cs : List Char) :
    encode (c :: cs) = String.utf8EncodeChar c ++ encode cs := rfl

theorem encode_append (cs ds : List Char) : encode (cs ++ ds) = encode cs ++ encode ds :=
  List.flatMap_append

theorem valid_encode (cs : List Char) : Valid (encode cs) := ⟨cs, rfl⟩

theorem isUtf8CharacterFirstCodeUnit_iff (b : UInt8) :
    isUtf8CharacterFirstCodeUnit b ↔ ¬Tail b := by
  rw [isUtf8CharacterFirstCodeUnit, decide_eq_true_iff, ne_eq, tail_iff]

/-- A character is one byte that begins a character and bytes that do not, and its first byte shows
whether it takes four. -/
theorem encodeChar_spec (c : Char) : ∃ bytes, String.utf8EncodeChar c = firstByte c :: bytes ∧
    ¬Tail (firstByte c) ∧ (∀ b ∈ bytes, Tail b) ∧
    (0xf0 ≤ (firstByte c).toNat ↔ 0x10000 ≤ c.toNat) ∧ (firstByte c).toNat < 0xf8 := by
  have hlt := toNat_lt c
  rw [firstByte, ← append_toNat]
  rcases append_cases (n := c.toNat) (by omega) with ⟨h, he⟩ | ⟨h, h', he⟩ | ⟨h, h', he⟩ | ⟨h, he⟩
  all_goals
    rw [he]
    refine ⟨_, rfl, ?_, ?_, ?_, ?_⟩
    · rw [List.headD_cons, Tail, toNat_ofNat_of_lt (by omega)]
      omega
    · simp only [List.forall_mem_cons, List.not_mem_nil, false_imp_iff, implies_true, and_true,
        tail_ofNat]
    · rw [List.headD_cons, toNat_ofNat_of_lt (by omega)]
      omega
    · rw [List.headD_cons, toNat_ofNat_of_lt (by omega)]
      omega

/-! ## Lengths -/

theorem foldl_add_eq_sum (f : UInt8 → ℕ) (str : List UInt8) (result : ℕ) :
    str.foldl (fun result c ↦ result + f c) result = result + (str.map f).sum := by
  induction str generalizing result with
  | nil => rfl
  | cons c str ih => rw [List.foldl_cons, ih, List.map_cons, List.sum_cons, Nat.add_assoc]

/-- What is counted at first bytes only is counted once for each character. -/
theorem sum_encode {f : UInt8 → ℕ} (hf : ∀ b, Tail b → f b = 0) (cs : List Char) :
    ((encode cs).map f).sum = (cs.map fun c ↦ f (firstByte c)).sum := by
  induction cs with
  | nil => rfl
  | cons c cs ih =>
    obtain ⟨bytes, hc, -, hbytes, -⟩ := encodeChar_spec c
    have hzero : (bytes.map f).sum = 0 := by
      apply List.sum_eq_zero
      intro n hn
      obtain ⟨b, hb, rfl⟩ := List.mem_map.1 hn
      exact hf b (hbytes b hb)
    rw [encode_cons, hc, List.map_append, List.sum_append, ih, List.map_cons, List.sum_cons, hzero,
      List.map_cons, List.sum_cons, Nat.add_zero]

theorem isUtf8CharacterFirstCodeUnit_tail {b : UInt8} (hb : Tail b) :
    isUtf8CharacterFirstCodeUnit b = false :=
  Bool.eq_false_iff.2 fun h ↦ (isUtf8CharacterFirstCodeUnit_iff b).1 h hb

theorem isUtf8CharacterFirstCodeUnit_firstByte (c : Char) :
    isUtf8CharacterFirstCodeUnit (firstByte c) = true := by
  obtain ⟨_, -, hfirst, -⟩ := encodeChar_spec c
  exact (isUtf8CharacterFirstCodeUnit_iff _).2 hfirst

/-- `utf8_length` counts characters. -/
theorem utf8Length_encode (cs : List Char) : utf8Length (encode cs) = cs.length := by
  rw [utf8Length, foldl_add_eq_sum, Nat.zero_add, sum_encode]
  · simp only [isUtf8CharacterFirstCodeUnit_firstByte, Bool.toNat_true, List.map_const',
      List.sum_replicate, smul_eq_mul, Nat.mul_one]
  · intro b hb
    rw [isUtf8CharacterFirstCodeUnit_tail hb, Bool.toNat_false]

theorem and_f8 (n : ℕ) : n &&& 0xf8 = n / 8 % 32 * 8 := and_field n 3 5

/-- `utf8_utf16_length` counts the code units of UTF-16. -/
theorem utf8Utf16Length_encode (cs : List Char) : utf8Utf16Length (encode cs) = utf16Length cs := by
  rw [utf8Utf16Length, foldl_add_eq_sum, Nat.zero_add, sum_encode, utf16Length]
  · congr 1
    apply List.map_congr_left
    intro c _
    obtain ⟨_, -, -, -, hfour, hlt⟩ := encodeChar_spec c
    rw [isUtf8CharacterFirstCodeUnit_firstByte, and_f8, codeUnits, Bool.toNat_true]
    split_ifs with h
    · rw [decide_eq_false (by omega), Bool.toNat_false]
    · rw [decide_eq_true (by omega), Bool.toNat_true]
  · intro b hb
    have hne : b.toNat &&& 0xf8 ≠ 0xf0 := by
      obtain ⟨hle, hlt⟩ := hb
      rw [and_f8]
      omega
    rw [isUtf8CharacterFirstCodeUnit_tail hb, decide_eq_false hne, Bool.toNat_false]

/-! ## Where the loops cut -/

section Cut

variable {β : Type u} (spend : UInt8 → β → Option β)

/-- The characters that a loop lets through. -/
def kept : List Char → β → List Char
  | [], _ => []
  | c :: cs, length =>
    match spend (firstByte c) length with
    | none => []
    | some length => c :: kept cs length

theorem kept_isPrefix (cs : List Char) (length : β) : kept spend cs length <+: cs := by
  induction cs generalizing length with
  | nil => exact List.nil_prefix
  | cons c cs ih =>
    rw [kept]
    cases spend (firstByte c) length with
    | none => exact List.nil_prefix
    | some length => exact List.cons_prefix_cons.2 ⟨rfl, ih length⟩

/-- The bytes that only continue a character are passed. -/
theorem cutPosition_append {bytes : List UInt8} (hbytes : ∀ b ∈ bytes, Tail b)
    (str : List UInt8) (length : β) : cutPosition spend (bytes ++ str) length =
      cutPosition spend str length + bytes.length := by
  induction bytes with
  | nil => rfl
  | cons b bytes ih =>
    rw [List.cons_append, cutPosition, isUtf8CharacterFirstCodeUnit_tail (hbytes b
      List.mem_cons_self), if_neg Bool.false_ne_true, ih fun b hb ↦ hbytes b
      (List.mem_cons_of_mem _ hb), List.length_cons, Nat.add_assoc]

/-- A valid string is cut between characters. -/
theorem take_cutPosition (cs : List Char) (length : β) :
    (encode cs).take (cutPosition spend (encode cs) length) = encode (kept spend cs length) := by
  induction cs generalizing length with
  | nil => rfl
  | cons c cs ih =>
    obtain ⟨bytes, hc, -, hbytes, -⟩ := encodeChar_spec c
    rw [encode_cons, hc, List.cons_append, cutPosition,
      if_pos (isUtf8CharacterFirstCodeUnit_firstByte c), kept]
    cases spend (firstByte c) length with
    | none => rfl
    | some length =>
      dsimp only
      rw [cutPosition_append spend hbytes, List.take_succ_cons, Nat.add_comm,
        List.take_length_add_append, ih, encode_cons, hc, List.cons_append]

end Cut

theorem kept_spendCharacter (cs : List Char) (length : ℕ) :
    kept spendCharacter cs length = cs.take length := by
  induction cs generalizing length with
  | nil => rw [kept, List.take_nil]
  | cons c cs ih =>
    cases length with
    | zero => rfl
    | succ length => exact congrArg (c :: ·) (ih length)

/-! ## Characters counted -/

theorem length_le_length_encode (cs : List Char) : cs.length ≤ (encode cs).length := by
  induction cs with
  | nil => exact Nat.le_refl 0
  | cons c cs ih =>
    obtain ⟨bytes, hc, -⟩ := encodeChar_spec c
    rw [encode_cons, hc, List.length_append, List.length_cons, List.length_cons]
    omega

theorem utf8Truncate_encode (cs : List Char) (length : ℕ) :
    utf8Truncate (encode cs) length = encode (cs.take length) := by
  have hle := length_le_length_encode cs
  rw [utf8Truncate]
  split_ifs with h
  · rw [take_cutPosition, kept_spendCharacter]
  · rw [List.take_of_length_le (by omega)]

theorem utf8SubstrFrom_encode (cs : List Char) (offset : ℕ) :
    utf8SubstrFrom (encode cs) offset = encode (cs.drop offset) := by
  rw [utf8SubstrFrom]
  split_ifs with h
  · rw [h, List.drop_zero]
  · conv_lhs => rw [utf8Truncate_encode, ← List.take_append_drop offset cs]
    rw [encode_append, List.take_append_drop, List.drop_left]

/-- Truncating and cutting out are what they are on the list of characters, and give valid
strings. -/
theorem utf8_slices {s : List UInt8} (hs : Valid s) : ∃ cs : List Char, s = encode cs ∧
    utf8Length s = cs.length ∧
    (∀ length, utf8Truncate s length = encode (cs.take length) ∧
      Valid (utf8Truncate s length)) ∧
    (∀ offset, utf8SubstrFrom s offset = encode (cs.drop offset) ∧
      Valid (utf8SubstrFrom s offset)) ∧
    ∀ offset length, utf8Substr s offset length = encode ((cs.drop offset).take length) ∧
      Valid (utf8Substr s offset length) := by
  obtain ⟨cs, rfl⟩ := hs
  have hsubstr : ∀ offset length,
      utf8Substr (encode cs) offset length = encode ((cs.drop offset).take length) := by
    intro offset length
    rw [utf8Substr, utf8SubstrFrom_encode, utf8Truncate_encode]
  refine ⟨cs, rfl, utf8Length_encode cs, fun length ↦ ?_, fun offset ↦ ?_, fun offset length ↦ ?_⟩
  · exact ⟨utf8Truncate_encode cs length, ⟨_, utf8Truncate_encode cs length⟩⟩
  · exact ⟨utf8SubstrFrom_encode cs offset, ⟨_, utf8SubstrFrom_encode cs offset⟩⟩
  · exact ⟨hsubstr offset length, ⟨_, hsubstr offset length⟩⟩

/-- The last two of three characters of one, two and four bytes. -/
theorem utf8_slices_three : ∃ cs : List Char,
    encode [Char.ofNat 0x61, Char.ofNat 0xdf, Char.ofNat 0x1f600] = encode cs ∧
      utf8Substr (encode [Char.ofNat 0x61, Char.ofNat 0xdf, Char.ofNat 0x1f600]) 1 2 =
        encode ((cs.drop 1).take 2) := by
  obtain ⟨cs, hcs, -, -, -, hsubstr⟩ :=
    utf8_slices (valid_encode [Char.ofNat 0x61, Char.ofNat 0xdf, Char.ofNat 0x1f600])
  exact ⟨cs, hcs, (hsubstr 1 2).1⟩

/-! ## Code units counted -/

theorem codeUnits_pos (c : Char) : 0 < codeUnits c := by
  rw [codeUnits]
  split_ifs <;> omega

theorem codeUnits_le (c : Char) : codeUnits c ≤ 2 := by
  rw [codeUnits]
  split_ifs <;> omega

@[simp] theorem utf16Length_nil : utf16Length [] = 0 := rfl

@[simp] theorem utf16Length_cons (c : Char) (cs : List Char) :
    utf16Length (c :: cs) = codeUnits c + utf16Length cs := rfl

/-- The longest text at the front of another whose length in UTF-16 is at most `n`. -/
structure LongestPrefix (n : ℕ) (cs pre : List Char) : Prop where
  isPrefix : pre <+: cs
  fits : utf16Length pre ≤ n
  longest : ∀ q, q <+: cs → utf16Length q ≤ n → q <+: pre

/-- The limit lies between the two halves of a surrogate pair. -/
def SplitsPair (cs : List Char) (n : ℕ) : Prop :=
  ∃ pre c post, cs = pre ++ c :: post ∧ codeUnits c = 2 ∧ utf16Length pre + 1 = n

variable {c : Char} {cs pre : List Char} {n : ℕ} {length : UInt64}

theorem LongestPrefix.nil (n : ℕ) : LongestPrefix n [] [] where
  isPrefix := List.nil_prefix
  fits := n.zero_le
  longest _ hq _ := hq

theorem LongestPrefix.cons (hc : codeUnits c ≤ n) (h : LongestPrefix (n - codeUnits c) cs pre) :
    LongestPrefix n (c :: cs) (c :: pre) where
  isPrefix := List.cons_prefix_cons.2 ⟨rfl, h.isPrefix⟩
  fits := by
    have := h.fits
    rw [utf16Length_cons]
    omega
  longest q hq hfits := by
    cases q with
    | nil => exact List.nil_prefix
    | cons d q =>
      obtain ⟨rfl, hrest⟩ := List.cons_prefix_cons.1 hq
      rw [utf16Length_cons] at hfits
      exact List.cons_prefix_cons.2 ⟨rfl, h.longest q hrest (by omega)⟩

theorem LongestPrefix.stop (hc : n < codeUnits c) : LongestPrefix n (c :: cs) [] where
  isPrefix := List.nil_prefix
  fits := n.zero_le
  longest q hq hfits := by
    cases q with
    | nil => exact List.nil_prefix
    | cons d q =>
      obtain ⟨rfl, -⟩ := List.cons_prefix_cons.1 hq
      rw [utf16Length_cons] at hfits
      omega

theorem SplitsPair.cons (h : SplitsPair cs (n - codeUnits c)) (hc : codeUnits c ≤ n) :
    SplitsPair (c :: cs) n := by
  obtain ⟨pre, d, post, rfl, hd, hpre⟩ := h
  refine ⟨c :: pre, d, post, rfl, hd, ?_⟩
  rw [utf16Length_cons]
  omega

theorem splitsPair_cons_iff : SplitsPair (c :: cs) n ↔
    codeUnits c = 2 ∧ n = 1 ∨ codeUnits c ≤ n ∧ SplitsPair cs (n - codeUnits c) := by
  constructor
  · rintro ⟨pre, d, post, hcs, hd, hn⟩
    cases pre with
    | nil =>
      obtain ⟨rfl, rfl⟩ := List.cons.inj hcs
      exact .inl ⟨hd, hn.symm⟩
    | cons e pre =>
      obtain ⟨rfl, rfl⟩ := List.cons.inj hcs
      rw [utf16Length_cons] at hn
      exact .inr ⟨by omega, pre, d, post, rfl, hd, by omega⟩
  · rintro (⟨hc, rfl⟩ | ⟨hc, h⟩)
    · exact ⟨[], c, cs, rfl, hc, rfl⟩
    · exact h.cons hc

/-! ## The loop over code units -/

theorem firstByte_ge_iff (c : Char) : firstByte c ≥ 0xf0 ↔ codeUnits c = 2 := by
  obtain ⟨_, -, -, -, hfour, -⟩ := encodeChar_spec c
  have hge : firstByte c ≥ 0xf0 ↔ 0xf0 ≤ (firstByte c).toNat := UInt8.le_iff_toNat_le
  rw [hge, hfour, codeUnits]
  split_ifs <;> omega

theorem spendCodeUnits_zero (h : length.toNat = 0) (b : UInt8) :
    spendCodeUnits b length = none := by
  rw [spendCodeUnits, if_pos]
  rw [UInt64.le_iff_toNat_le, h]
  exact Nat.zero_le _

/-- What fits is counted as it should. -/
theorem spendCodeUnits_of_le (h : codeUnits c ≤ length.toNat) :
    ∃ left, spendCodeUnits (firstByte c) length = some left ∧
      left.toNat = length.toNat - codeUnits c := by
  have hpos := codeUnits_pos c
  have hone : (1 : UInt64) ≤ length := UInt64.le_iff_toNat_le.2 (by
    change 1 ≤ length.toNat
    omega)
  have hsub : (length - 1).toNat = length.toNat - 1 := UInt64.toNat_sub_of_le _ _ hone
  have hnot : ¬length ≤ 0 := by
    rw [UInt64.le_iff_toNat_le]
    change ¬length.toNat ≤ 0
    omega
  rw [spendCodeUnits, if_neg hnot]
  dsimp only
  split_ifs with hfour
  · rw [(firstByte_ge_iff c).1 hfour] at h ⊢
    have hone : (1 : UInt64) ≤ length - 1 := UInt64.le_iff_toNat_le.2 (by
      rw [hsub]
      change 1 ≤ length.toNat - 1
      omega)
    exact ⟨_, rfl, by rw [UInt64.toNat_sub_of_le _ _ hone, hsub]; rfl⟩
  · have hcodeUnits : codeUnits c = 1 := by
      have := codeUnits_le c
      have := mt (firstByte_ge_iff c).2 hfour
      omega
    exact ⟨_, rfl, by rw [hsub, hcodeUnits]⟩

/-- A pair whose second half does not fit is let through. -/
theorem spendCodeUnits_of_lt (hlength : length.toNat ≠ 0) (h : length.toNat < codeUnits c) :
    ∃ left, spendCodeUnits (firstByte c) length = some left := by
  have hnot : ¬length ≤ 0 := by
    rw [UInt64.le_iff_toNat_le]
    change ¬length.toNat ≤ 0
    omega
  have hfour : firstByte c ≥ 0xf0 := by
    rw [firstByte_ge_iff]
    have := codeUnits_le c
    omega
  rw [spendCodeUnits, if_neg hnot]
  dsimp only
  rw [if_pos hfour]
  exact ⟨_, rfl⟩

/-- The loop keeps the longest prefix unless the limit splits a pair. -/
theorem longestPrefix_kept (h : ¬SplitsPair cs length.toNat) :
    LongestPrefix length.toNat cs (kept spendCodeUnits cs length) := by
  induction cs generalizing length with
  | nil => exact .nil _
  | cons c cs ih =>
    rw [splitsPair_cons_iff, not_or, not_and, not_and] at h
    rw [kept]
    by_cases hc : codeUnits c ≤ length.toNat
    · obtain ⟨left, hspend, hleft⟩ := spendCodeUnits_of_le hc
      rw [hspend]
      rw [← hleft] at h
      exact .cons hc (hleft ▸ ih (h.2 hc))
    · have hzero : length.toNat = 0 := by
        have := codeUnits_le c
        by_contra hne
        exact h.1 (by omega) (by omega)
      rw [spendCodeUnits_zero hzero]
      exact .stop (by omega)

/-- If the limit splits a pair, the loop keeps too much. -/
theorem lt_utf16Length_kept (h : SplitsPair cs length.toNat) :
    length.toNat < utf16Length (kept spendCodeUnits cs length) := by
  induction cs generalizing length with
  | nil =>
    obtain ⟨pre, c, post, hcs, -⟩ := h
    exact absurd hcs.symm (List.append_ne_nil_of_right_ne_nil _ (List.cons_ne_nil _ _))
  | cons c cs ih =>
    rw [kept]
    rcases splitsPair_cons_iff.1 h with ⟨hc, hone⟩ | ⟨hc, h⟩
    · obtain ⟨left, hspend⟩ :=
        spendCodeUnits_of_lt (show length.toNat ≠ 0 by omega) (show _ < codeUnits c by omega)
      rw [hspend]
      dsimp only
      rw [utf16Length_cons]
      omega
    · obtain ⟨left, hspend, hleft⟩ := spendCodeUnits_of_le hc
      rw [← hleft] at h
      have := ih h
      rw [hspend]
      dsimp only
      rw [utf16Length_cons]
      omega

/-- Up to a boundary between characters the loop keeps what is in front of it. -/
theorem kept_of_boundary (post : List Char) (h : utf16Length pre = length.toNat) :
    kept spendCodeUnits (pre ++ post) length = pre := by
  induction pre generalizing length with
  | nil =>
    cases post with
    | nil => rfl
    | cons c post => rw [List.nil_append, kept, spendCodeUnits_zero h.symm]
  | cons c pre ih =>
    rw [utf16Length_cons] at h
    obtain ⟨left, hspend, hleft⟩ := spendCodeUnits_of_le
      (show codeUnits c ≤ length.toNat by omega)
    rw [List.cons_append, kept, hspend]
    dsimp only
    rw [ih (by omega)]

theorem utf8Utf16Truncate_encode (cs : List Char) (length : UInt64) :
    utf8Utf16Truncate (encode cs) length = encode (kept spendCodeUnits cs length) :=
  take_cutPosition spendCodeUnits cs length

theorem kept_zero (cs : List Char) (h : length.toNat = 0) :
    kept spendCodeUnits cs length = [] := by
  cases cs with
  | nil => rfl
  | cons c cs => rw [kept, spendCodeUnits_zero h]

/-- The text behind the characters that are kept. -/
theorem utf8Utf16SubstrFrom_encode (cs : List Char) (offset : UInt64) :
    ∃ post, cs = kept spendCodeUnits cs offset ++ post ∧
      utf8Utf16SubstrFrom (encode cs) offset = encode post := by
  obtain ⟨post, hpost⟩ := kept_isPrefix spendCodeUnits cs offset
  refine ⟨post, hpost.symm, ?_⟩
  rw [utf8Utf16SubstrFrom]
  split_ifs with hzero
  · have hnil : kept spendCodeUnits cs offset = [] := kept_zero cs (by rw [hzero]; rfl)
    rw [← hpost, hnil, List.nil_append]
  · rw [utf8Utf16Truncate_encode]
    generalize kept spendCodeUnits cs offset = pre at hpost ⊢
    rw [← hpost, encode_append, List.drop_left]

/-- `utf8_utf16_truncate` gives the longest prefix of whole characters that fits, and nothing longer
than the limit, exactly if the limit does not split a surrogate pair. -/
theorem utf8Utf16Truncate_iff (cs : List Char) (length : UInt64) :
    ((∃ pre, LongestPrefix length.toNat cs pre ∧
        utf8Utf16Truncate (encode cs) length = encode pre) ↔ ¬SplitsPair cs length.toNat) ∧
      (utf8Utf16Length (utf8Utf16Truncate (encode cs) length) ≤ length.toNat ↔
        ¬SplitsPair cs length.toNat) := by
  rw [utf8Utf16Truncate_encode, utf8Utf16Length_encode]
  refine ⟨⟨?_, ?_⟩, ?_, ?_⟩
  · rintro ⟨pre, hpre, heq⟩ hsplits
    have hlt := lt_utf16Length_kept hsplits
    rw [← utf8Utf16Length_encode, heq, utf8Utf16Length_encode] at hlt
    exact absurd hpre.fits (not_le_of_gt hlt)
  · exact fun h ↦ ⟨_, longestPrefix_kept h, rfl⟩
  · exact fun hle hsplits ↦ absurd hle (not_le_of_gt (lt_utf16Length_kept hsplits))
  · exact fun h ↦ (longestPrefix_kept h).fits

/-- Both functions give the longest slice of whole characters that fits, and nothing longer than the
limit, exactly if the limit does not split a surrogate pair of the text it is counted in. -/
theorem utf16_slices_iff {s : List UInt8} (hs : Valid s) : ∃ cs : List Char, s = encode cs ∧
    (∀ length, ((∃ pre, LongestPrefix length.toNat cs pre ∧
        utf8Utf16Truncate s length = encode pre) ↔ ¬SplitsPair cs length.toNat) ∧
      (utf8Utf16Length (utf8Utf16Truncate s length) ≤ length.toNat ↔
        ¬SplitsPair cs length.toNat)) ∧
    ∀ offset, ∃ pre post, cs = pre ++ post ∧ utf8Utf16SubstrFrom s offset = encode post ∧
      (∀ front, front <+: cs → utf16Length front = offset.toNat → pre = front) ∧
      ∀ length, ((∃ mid, LongestPrefix length.toNat post mid ∧
          utf8Utf16Substr s offset length = encode mid) ↔ ¬SplitsPair post length.toNat) ∧
        (utf8Utf16Length (utf8Utf16Substr s offset length) ≤ length.toNat ↔
          ¬SplitsPair post length.toNat) := by
  obtain ⟨cs, rfl⟩ := hs
  refine ⟨cs, rfl, utf8Utf16Truncate_iff cs, fun offset ↦ ?_⟩
  obtain ⟨post, hpost, hsubstr⟩ := utf8Utf16SubstrFrom_encode cs offset
  refine ⟨_, post, hpost, hsubstr, ?_, fun length ↦ ?_⟩
  · rintro front ⟨rest, rfl⟩ hfront
    exact kept_of_boundary rest hfront
  · have hslice : utf8Utf16Substr (cs.flatMap String.utf8EncodeChar) offset length =
        utf8Utf16Truncate (encode post) length := congrArg (utf8Utf16Truncate · length) hsubstr
    rw [hslice]
    exact utf8Utf16Truncate_iff post length

/-- A single pair cut in two is kept as a whole. -/
theorem utf16_slices_split :
    utf8Utf16Truncate (encode [Char.ofNat 0x1f600]) 1 = encode [Char.ofNat 0x1f600] ∧
      utf8Utf16Length (encode [Char.ofNat 0x1f600]) = 2 ∧
      ¬∃ pre, LongestPrefix 1 [Char.ofNat 0x1f600] pre ∧
        utf8Utf16Truncate (encode [Char.ofNat 0x1f600]) 1 = encode pre := by
  have hkept : utf8Utf16Truncate (encode [Char.ofNat 0x1f600]) 1 = encode [Char.ofNat 0x1f600] := by
    decide
  refine ⟨hkept, by decide, ?_⟩
  rintro ⟨pre, hpre, heq⟩
  have hlength := congrArg utf8Utf16Length (hkept.symm.trans heq)
  rw [utf8Utf16Length_encode, utf8Utf16Length_encode] at hlength
  have hfits := hpre.fits
  rw [← hlength] at hfits
  exact absurd hfits (by decide)

/-- Two code units hold the pair. -/
theorem utf16_slices_whole : ∃ cs : List Char, encode [Char.ofNat 0x1f600] = encode cs ∧
    ((∃ pre, LongestPrefix 2 cs pre ∧
      utf8Utf16Truncate (encode [Char.ofNat 0x1f600]) 2 = encode pre) ↔ ¬SplitsPair cs 2) := by
  obtain ⟨cs, hcs, htruncate, -⟩ := utf16_slices_iff (valid_encode [Char.ofNat 0x1f600])
  exact ⟨cs, hcs, (htruncate 2).1⟩

end PxcCore.Utf8
