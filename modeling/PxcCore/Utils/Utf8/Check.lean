import PxcCore.Lib.Result
import PxcCore.Utils.Utf8

/-!
# Reading UTF-8

`check_utf8`, `next_utf8_unsafe` and `append_utf8_character`.  A pointer is what memory holds from
it on, up to and with the last byte that may be read: the terminator of a `CSlice`, the last byte
of a `Slice`.
-/

namespace PxcCore.Utf8

open Lib

/-- How a function ends other than by returning. -/
inductive Fault where
  | outOfBounds
  | unreachable
  | fuel
deriving DecidableEq, Repr

/-! ## The functions -/

/-- The loop of `check_utf8`. -/
def checkUtf8Loop : List UInt8 → Except Fault Bool
  | [] => .error .outOfBounds
  | a :: data =>
    if a.toNat &&& 0x80 = 0 then
      if data = [] then .ok true else checkUtf8Loop data
    else if a.toNat &&& 0x40 = 0 then .ok false
    else
      match data with
      | [] => .error .outOfBounds
      | b :: data =>
        if b.toNat &&& 0xc0 ≠ 0x80 then .ok false
        else if a.toNat &&& 0x20 = 0 then
          if a.toNat &&& 0x1e > 0 then checkUtf8Loop data else .ok false
        else
          match data with
          | [] => .error .outOfBounds
          | c :: data =>
            if c.toNat &&& 0xc0 ≠ 0x80 then .ok false
            else if a.toNat &&& 0x10 = 0 then
              let x := ((a.toNat &&& 0x0f) <<< 6) ||| (b.toNat &&& 0x20)
              if x ≠ 0 ∧ x ≠ 0x360 then checkUtf8Loop data else .ok false
            else
              match data with
              | [] => .error .outOfBounds
              | d :: data =>
                if d.toNat &&& 0xc0 ≠ 0x80 then .ok false
                else if a.toNat &&& 0x08 = 0 then
                  let t := ((a.toNat &&& 0x07) <<< 6) ||| (b.toNat &&& 0x30)
                  if 0 < t ∧ t < 0x110 then checkUtf8Loop data else .ok false
                else .ok false

/-- `check_utf8`. -/
def checkUtf8 (str : List UInt8) : Except Fault Bool := checkUtf8Loop (str ++ [0])

/-- `next_utf8_unsafe`: the code of the character and the pointer to what follows. -/
def nextUtf8Unsafe : List UInt8 → Except Fault (ℕ × List UInt8)
  | [] => .error .outOfBounds
  | a :: ptr =>
    if a.toNat &&& 0x80 = 0 then .ok (a.toNat, ptr)
    else if a.toNat &&& 0x20 = 0 then
      match ptr with
      | b :: ptr => .ok (((a.toNat &&& 0x1f) <<< 6) ||| (b.toNat &&& 0x3f), ptr)
      | _ => .error .outOfBounds
    else if a.toNat &&& 0x10 = 0 then
      match ptr with
      | b :: c :: ptr =>
        .ok (((a.toNat &&& 0x0f) <<< 12) ||| ((b.toNat &&& 0x3f) <<< 6) ||| (c.toNat &&& 0x3f), ptr)
      | _ => .error .outOfBounds
    else if a.toNat &&& 0x08 = 0 then
      match ptr with
      | b :: c :: d :: ptr =>
        .ok (((a.toNat &&& 0x07) <<< 18) ||| ((b.toNat &&& 0x3f) <<< 12) |||
          ((c.toNat &&& 0x3f) <<< 6) ||| (d.toNat &&& 0x3f), ptr)
      | _ => .error .outOfBounds
    else .error .unreachable

/-- `append_utf8_character`. -/
def appendUtf8Character (str : List UInt8) (code : ℕ) : List UInt8 :=
  if code ≤ 0x7f then
    str ++ [UInt8.ofNat code]
  else if code ≤ 0x7ff then
    str ++ [UInt8.ofNat (0xc0 ||| (code >>> 6))] ++ [UInt8.ofNat (0x80 ||| (code &&& 0x3f))]
  else if code ≤ 0xffff then
    str ++ [UInt8.ofNat (0xe0 ||| (code >>> 12))] ++
      [UInt8.ofNat (0x80 ||| ((code >>> 6) &&& 0x3f))] ++ [UInt8.ofNat (0x80 ||| (code &&& 0x3f))]
  else
    str ++ [UInt8.ofNat (0xf0 ||| (code >>> 18))] ++
      [UInt8.ofNat (0x80 ||| ((code >>> 12) &&& 0x3f))] ++
      [UInt8.ofNat (0x80 ||| ((code >>> 6) &&& 0x3f))] ++ [UInt8.ofNat (0x80 ||| (code &&& 0x3f))]

/-- The codes that `next_utf8_unsafe` reads one after the other until the end. -/
def codes : ℕ → List UInt8 → Except Fault (List ℕ)
  | _, [] => .ok []
  | 0, _ :: _ => .error .fuel
  | fuel + 1, pos => do
    let (code, pos) ← nextUtf8Unsafe pos
    return code :: (← codes fuel pos)

theorem appendUtf8Character_eq (str : List UInt8) (code : ℕ) :
    appendUtf8Character str code = str ++ appendUtf8CharacterUnsafe code := by
  unfold appendUtf8Character appendUtf8CharacterUnsafe
  split_ifs <;> simp

/-! ## Fields of a byte -/

/-- `j` bits from bit `i` on. -/
theorem and_field (n i j : ℕ) : n &&& (2 ^ j - 1) * 2 ^ i = n / 2 ^ i % 2 ^ j * 2 ^ i := by
  rw [← Nat.shiftLeft_eq, ← Nat.shiftLeft_eq, ← Nat.shiftRight_eq_div_pow,
    ← Nat.and_two_pow_sub_one_eq_mod, Nat.shiftLeft_and_distrib]
  refine Nat.eq_of_testBit_eq fun k ↦ ?_
  rw [Nat.testBit_and, Nat.testBit_and, Nat.testBit_shiftLeft, Nat.testBit_shiftLeft,
    Nat.testBit_shiftRight]
  by_cases hk : k ≥ i
  · rw [Nat.add_sub_cancel' hk, decide_eq_true hk, Bool.true_and, Bool.true_and]
  · rw [decide_eq_false hk, Bool.false_and, Bool.and_false, Bool.and_false]

theorem and_80 (n : ℕ) : n &&& 0x80 = n / 128 % 2 * 128 := and_field n 7 1

theorem and_40 (n : ℕ) : n &&& 0x40 = n / 64 % 2 * 64 := and_field n 6 1

theorem and_c0 (n : ℕ) : n &&& 0xc0 = n / 64 % 4 * 64 := and_field n 6 2

theorem and_20 (n : ℕ) : n &&& 0x20 = n / 32 % 2 * 32 := and_field n 5 1

theorem and_10 (n : ℕ) : n &&& 0x10 = n / 16 % 2 * 16 := and_field n 4 1

theorem and_08 (n : ℕ) : n &&& 0x08 = n / 8 % 2 * 8 := and_field n 3 1

theorem and_1e (n : ℕ) : n &&& 0x1e = n / 2 % 16 * 2 := and_field n 1 4

theorem and_30 (n : ℕ) : n &&& 0x30 = n / 16 % 4 * 16 := and_field n 4 2

/-- A byte that continues a character. -/
def Tail (b : UInt8) : Prop := 0x80 ≤ b.toNat ∧ b.toNat < 0xc0

theorem tail_iff (b : UInt8) : b.toNat &&& 0xc0 = 0x80 ↔ Tail b := by
  have := b.toNat_lt
  rw [and_c0, Tail]
  omega

/-! ## Characters -/

/-- What is written for a code has four forms. -/
theorem append_cases {n : ℕ} (hn : n < 0x200000) :
    (n < 0x80 ∧ appendUtf8CharacterUnsafe n = [UInt8.ofNat n]) ∨
    (0x80 ≤ n ∧ n < 0x800 ∧ appendUtf8CharacterUnsafe n =
      [UInt8.ofNat (0xc0 + n / 64), UInt8.ofNat (0x80 + n % 64)]) ∨
    (0x800 ≤ n ∧ n < 0x10000 ∧ appendUtf8CharacterUnsafe n =
      [UInt8.ofNat (0xe0 + n / 4096), UInt8.ofNat (0x80 + n / 64 % 64),
        UInt8.ofNat (0x80 + n % 64)]) ∨
    (0x10000 ≤ n ∧ appendUtf8CharacterUnsafe n =
      [UInt8.ofNat (0xf0 + n / 262144), UInt8.ofNat (0x80 + n / 4096 % 64),
        UInt8.ofNat (0x80 + n / 64 % 64), UInt8.ofNat (0x80 + n % 64)]) := by
  by_cases h1 : n < 0x80
  · exact .inl ⟨h1, append_one (by omega)⟩
  by_cases h2 : n < 0x800
  · exact .inr (.inl ⟨by omega, h2, append_two (by omega) (by omega)⟩)
  by_cases h3 : n < 0x10000
  · exact .inr (.inr (.inl ⟨by omega, h3, append_three (by omega) (by omega)⟩))
  · exact .inr (.inr (.inr ⟨by omega, append_four (by omega) hn⟩))

theorem tail_ofNat (n : ℕ) : Tail (UInt8.ofNat (0x80 + n % 64)) := by
  rw [Tail, toNat_ofNat_of_lt (by omega)]
  omega

/-- One turn of the loop passes one character. -/
theorem checkUtf8Loop_encode (c : Char) {data : List UInt8} (hd : data ≠ []) :
    checkUtf8Loop (String.utf8EncodeChar c ++ data) = checkUtf8Loop data := by
  have hlt := toNat_lt c
  have hsur := not_surrogate c
  rcases append_cases (n := c.toNat) (by omega) with
    ⟨h, he⟩ | ⟨h, h', he⟩ | ⟨h, h', he⟩ | ⟨h, he⟩ <;>
    rw [← append_toNat, he, checkUtf8Loop.eq_def] <;> simp only [List.cons_append, List.nil_append]
  · rw [toNat_ofNat_of_lt (by omega), and_80, if_pos (by omega), if_neg hd]
  · have hb := (tail_iff _).2 (tail_ofNat c.toNat)
    have ha : (UInt8.ofNat (0xc0 + c.toNat / 64)).toNat = _ := toNat_ofNat_of_lt (by omega)
    simp only [hb, ha, ne_eq, not_true_eq_false, if_false, and_80, and_40, and_20, and_1e]
    rw [if_neg (by omega), if_neg (by omega), if_pos (by omega), if_pos (by omega)]
  · have hb := (tail_iff _).2 (tail_ofNat (c.toNat / 64))
    have hc := (tail_iff _).2 (tail_ofNat c.toNat)
    have ha : (UInt8.ofNat (0xe0 + c.toNat / 4096)).toNat = _ := toNat_ofNat_of_lt (by omega)
    have hb' : (UInt8.ofNat (0x80 + c.toNat / 64 % 64)).toNat = _ := toNat_ofNat_of_lt (by omega)
    simp only [hb, hc, ha, ne_eq, not_true_eq_false, if_false, and_80, and_40, and_20, and_10]
    rw [if_neg (by omega), if_neg (by omega), if_neg (by omega), if_pos (by omega), hb', and_0f,
      shiftLeft_or 6 (by omega), if_pos (by omega)]
  · have hb := (tail_iff _).2 (tail_ofNat (c.toNat / 4096))
    have hc := (tail_iff _).2 (tail_ofNat (c.toNat / 64))
    have hd := (tail_iff _).2 (tail_ofNat c.toNat)
    have ha : (UInt8.ofNat (0xf0 + c.toNat / 262144)).toNat = _ := toNat_ofNat_of_lt (by omega)
    have hb' : (UInt8.ofNat (0x80 + c.toNat / 4096 % 64)).toNat = _ :=
      toNat_ofNat_of_lt (by omega)
    simp only [hb, hc, hd, ha, ne_eq, not_true_eq_false, if_false, and_80, and_40, and_20, and_10,
      and_08]
    rw [if_neg (by omega), if_neg (by omega), if_neg (by omega), if_neg (by omega),
      if_pos (by omega), hb', and_07, and_30, shiftLeft_or 6 (by omega), if_pos (by omega)]

/-- One call reads one code. -/
theorem nextUtf8Unsafe_append {n : ℕ} (hn : n < 0x200000) (ptr : List UInt8) :
    nextUtf8Unsafe (appendUtf8CharacterUnsafe n ++ ptr) = .ok (n, ptr) := by
  rcases append_cases hn with ⟨h, he⟩ | ⟨h, h', he⟩ | ⟨h, h', he⟩ | ⟨h, he⟩ <;> rw [he] <;>
    simp only [List.cons_append, List.nil_append, nextUtf8Unsafe, and_80, and_20, and_10, and_08]
  · rw [toNat_ofNat_of_lt (by omega), if_pos (by omega)]
  · rw [toNat_ofNat_of_lt (by omega), toNat_ofNat_of_lt (by omega), if_neg (by omega),
      if_pos (by omega), and_1f, and_3f, shiftLeft_or 6 (by omega)]
    congr 2
    omega
  · rw [toNat_ofNat_of_lt (by omega), toNat_ofNat_of_lt (by omega), toNat_ofNat_of_lt (by omega),
      if_neg (by omega), if_neg (by omega), if_pos (by omega), and_0f, and_3f, and_3f,
      Nat.lor_assoc, shiftLeft_or 6 (by omega), shiftLeft_or 12 (by omega)]
    congr 2
    omega
  · rw [toNat_ofNat_of_lt (by omega), toNat_ofNat_of_lt (by omega), toNat_ofNat_of_lt (by omega),
      toNat_ofNat_of_lt (by omega), if_neg (by omega), if_neg (by omega), if_neg (by omega),
      if_pos (by omega), and_07, and_3f, and_3f, and_3f, Nat.lor_assoc, Nat.lor_assoc,
      shiftLeft_or 6 (by omega), shiftLeft_or 12 (by omega), shiftLeft_or 18 (by omega)]
    congr 2
    omega

theorem nextUtf8Unsafe_encode (c : Char) (ptr : List UInt8) :
    nextUtf8Unsafe (String.utf8EncodeChar c ++ ptr) = .ok (c.toNat, ptr) := by
  have hlt := toNat_lt c
  rw [← append_toNat, nextUtf8Unsafe_append (by omega)]

/-! ## Bytes that pass -/

theorem exists_char {n : ℕ} (h : n.isValidChar) : ∃ c : Char, c.toNat = n :=
  ⟨Char.ofNatAux n h, Char.toNat_ofNatAux h⟩

theorem ofNat_eq {n : ℕ} {a : UInt8} (h : n = a.toNat) : UInt8.ofNat n = a := by
  rw [h, UInt8.ofNat_toNat]

theorem exists_one {a : UInt8} (ha : a.toNat < 0x80) :
    ∃ c : Char, String.utf8EncodeChar c = [a] := by
  obtain ⟨c, hc⟩ := exists_char (n := a.toNat) (.inl (by omega))
  exact ⟨c, by rw [← append_toNat, hc, append_one (by omega), ofNat_eq rfl]⟩

theorem exists_two {a b : UInt8} (ha : 0xc2 ≤ a.toNat) (ha' : a.toNat < 0xe0) (hb : Tail b) :
    ∃ c : Char, String.utf8EncodeChar c = [a, b] := by
  obtain ⟨hb, hb'⟩ := hb
  obtain ⟨c, hc⟩ := exists_char (n := a.toNat % 32 * 64 + b.toNat % 64) (.inl (by omega))
  refine ⟨c, ?_⟩
  rw [← append_toNat, hc, append_two (by omega) (by omega), ofNat_eq (a := a) (by omega),
    ofNat_eq (a := b) (by omega)]

theorem exists_three {a b c : UInt8} (ha : 0xe0 ≤ a.toNat) (ha' : a.toNat < 0xf0) (hb : Tail b)
    (hc : Tail c) (h0 : a.toNat = 0xe0 → 0xa0 ≤ b.toNat) (hs : a.toNat = 0xed → b.toNat < 0xa0) :
    ∃ ch : Char, String.utf8EncodeChar ch = [a, b, c] := by
  obtain ⟨hb, hb'⟩ := hb
  obtain ⟨hc, hc'⟩ := hc
  obtain ⟨ch, hch⟩ := exists_char
    (n := a.toNat % 16 * 4096 + b.toNat % 64 * 64 + c.toNat % 64)
    (by rw [Nat.isValidChar]; omega)
  refine ⟨ch, ?_⟩
  rw [← append_toNat, hch, append_three (by omega) (by omega),
    ofNat_eq (a := a) (by omega), ofNat_eq (a := b) (by omega), ofNat_eq (a := c) (by omega)]

theorem exists_four {a b c d : UInt8} (ha : 0xf0 ≤ a.toNat) (ha' : a.toNat < 0xf8) (hb : Tail b)
    (hc : Tail c) (hd : Tail d) (h0 : a.toNat = 0xf0 → 0x90 ≤ b.toNat)
    (h4 : a.toNat < 0xf4 ∨ a.toNat = 0xf4 ∧ b.toNat < 0x90) :
    ∃ ch : Char, String.utf8EncodeChar ch = [a, b, c, d] := by
  obtain ⟨hb, hb'⟩ := hb
  obtain ⟨hc, hc'⟩ := hc
  obtain ⟨hd, hd'⟩ := hd
  obtain ⟨ch, hch⟩ := exists_char
    (n := a.toNat % 8 * 262144 + b.toNat % 64 * 4096 + c.toNat % 64 * 64 + d.toNat % 64)
    (by rw [Nat.isValidChar]; omega)
  refine ⟨ch, ?_⟩
  rw [← append_toNat, hch, append_four (by omega) (by omega),
    ofNat_eq (a := a) (by omega), ofNat_eq (a := b) (by omega), ofNat_eq (a := c) (by omega),
    ofNat_eq (a := d) (by omega)]

/-- The loop ends before the bytes do, and lets no string pass that is not valid. -/
def Decides (s : List UInt8) : Prop :=
  ∃ r, checkUtf8Loop (s ++ [0]) = .ok r ∧ (r = true → Valid s)

theorem Valid.of_exists {s bytes : List UInt8} (hc : ∃ c, String.utf8EncodeChar c = bytes)
    (h : Valid s) : Valid (bytes ++ s) := by
  obtain ⟨c, rfl⟩ := hc
  exact h.cons c

/-- After the bytes of a character the loop goes on. -/
theorem Decides.step {s bytes : List UInt8} (h : Decides s)
    (hc : ∃ c, String.utf8EncodeChar c = bytes) :
    ∃ r, checkUtf8Loop (s ++ [0]) = .ok r ∧ (r = true → Valid (bytes ++ s)) := by
  obtain ⟨r, hr, hv⟩ := h
  exact ⟨r, hr, fun h ↦ .of_exists hc (hv h)⟩

theorem checkUtf8Loop_decides (s : List UInt8) : Decides s := by
  induction hn : s.length using Nat.strong_induction_on generalizing s with
  | h n ih =>
    subst hn
    cases s with
    | nil => exact ⟨true, rfl, fun _ ↦ .nil⟩
    | cons a s =>
      have ha := a.toNat_lt
      rw [Decides, List.cons_append, checkUtf8Loop.eq_def]
      simp only [and_80, and_40, and_20, and_1e, and_10, and_08, and_0f, and_07, and_30]
      by_cases h80 : a.toNat < 0x80
      · rw [if_pos (by omega), if_neg (by simp)]
        exact (ih _ (by simp) s rfl).step (exists_one h80)
      rw [if_neg (by omega)]
      by_cases h40 : a.toNat < 0xc0
      · rw [if_pos (by omega)]
        exact ⟨false, rfl, nofun⟩
      rw [if_neg (by omega)]
      -- a string that ends inside a character: the terminator is read and does not pass
      cases s with
      | nil => exact ⟨false, rfl, nofun⟩
      | cons b s =>
      simp only [List.cons_append]
      by_cases hb : Tail b
      case neg =>
        rw [if_pos (mt (tail_iff b).1 hb)]
        exact ⟨false, rfl, nofun⟩
      rw [if_neg (not_not.2 ((tail_iff b).2 hb))]
      by_cases h20 : a.toNat < 0xe0
      · rw [if_pos (by omega)]
        split_ifs
        · exact (ih _ (by simp) s rfl).step (exists_two (by omega) h20 hb)
        · exact ⟨false, rfl, nofun⟩
      rw [if_neg (by omega)]
      cases s with
      | nil => exact ⟨false, rfl, nofun⟩
      | cons c s =>
      simp only [List.cons_append]
      by_cases hc : Tail c
      case neg =>
        rw [if_pos (mt (tail_iff c).1 hc)]
        exact ⟨false, rfl, nofun⟩
      rw [if_neg (not_not.2 ((tail_iff c).2 hc))]
      obtain ⟨hb₁, hb₂⟩ := id hb
      by_cases h10 : a.toNat < 0xf0
      · rw [if_pos (by omega), shiftLeft_or 6 (by omega)]
        split_ifs
        · exact (ih _ (by simp only [List.length_cons]; omega) s rfl).step
            (exists_three (by omega) h10 hb hc (by omega) (by omega))
        · exact ⟨false, rfl, nofun⟩
      rw [if_neg (by omega)]
      cases s with
      | nil => exact ⟨false, rfl, nofun⟩
      | cons d s =>
      simp only [List.cons_append]
      by_cases hd : Tail d
      case neg =>
        rw [if_pos (mt (tail_iff d).1 hd)]
        exact ⟨false, rfl, nofun⟩
      rw [if_neg (not_not.2 ((tail_iff d).2 hd)), shiftLeft_or 6 (by omega)]
      split_ifs
      · exact (ih _ (by simp only [List.length_cons]; omega) s rfl).step
          (exists_four (by omega) (by omega) hb hc hd (by omega) (by omega))
      · exact ⟨false, rfl, nofun⟩
      · exact ⟨false, rfl, nofun⟩

/-! ## Lists of codes -/

/-- What comes before an ASCII byteand after it. -/
theorem Valid.cons_cases {b : UInt8} {s : List UInt8} (h : Valid (b :: s)) :
    b.toNat < 0x80 ∧ Valid s ∨ 0x80 ≤ b.toNat ∧
      ∃ bytes t, b :: s = bytes ++ t ∧ bytes ≠ [] ∧ (∀ c ∈ bytes, 0x80 ≤ c.toNat) ∧
        (∃ c, String.utf8EncodeChar c = bytes) ∧ Valid t := by
  obtain ⟨cs, hcs⟩ := h
  cases cs with
  | nil => simp at hcs
  | cons c cs =>
    rw [List.flatMap_cons] at hcs
    have hlt := toNat_lt c
    have hbyte {n : ℕ} (h : 0x80 ≤ n) (h' : n < 256) : 0x80 ≤ (UInt8.ofNat n).toNat := by
      rwa [toNat_ofNat_of_lt h']
    rcases append_cases (n := c.toNat) (by omega) with ⟨h, he⟩ | ⟨h, h', he⟩ | ⟨h, h', he⟩ | ⟨h, he⟩
    all_goals rw [append_toNat] at he
    · rw [he] at hcs
      obtain ⟨rfl, rfl⟩ := List.cons.inj hcs
      exact .inl ⟨by rwa [toNat_ofNat_of_lt (by omega)], cs, rfl⟩
    all_goals
      have hall : ∀ b ∈ String.utf8EncodeChar c, 0x80 ≤ b.toNat := by
        rw [he]
        simp only [List.forall_mem_cons, List.not_mem_nil, false_imp_iff, implies_true, and_true]
        repeat' constructor
        all_goals exact hbyte (by omega) (by omega)
      refine .inr ⟨?_, _, _, hcs, String.utf8EncodeChar_ne_nil, hall, ⟨c, rfl⟩, cs, rfl⟩
      refine hall b ?_
      rw [he] at hcs ⊢
      rw [(List.cons.inj hcs).1]
      exact List.mem_cons_self

theorem Valid.tail {b : UInt8} {s : List UInt8} (h : Valid (b :: s)) (hb : b.toNat < 0x80) :
    Valid s := by
  rcases h.cons_cases with ⟨-, hs⟩ | ⟨hb', -⟩
  · exact hs
  · exact absurd hb (by omega)

theorem append_ne_nil (n : ℕ) : appendUtf8CharacterUnsafe n ≠ [] := by
  unfold appendUtf8CharacterUnsafe
  split_ifs <;> exact List.cons_ne_nil _ _

/-- Codes can be read back, and so no two lists of them are written alike. -/
theorem flatMap_append_inj {l l' : List ℕ} (hl : ∀ n ∈ l, n < 0x200000)
    (hl' : ∀ n ∈ l', n < 0x200000)
    (h : l.flatMap appendUtf8CharacterUnsafe = l'.flatMap appendUtf8CharacterUnsafe) : l = l' := by
  induction l generalizing l' with
  | nil =>
    cases l' with
    | nil => rfl
    | cons n l' =>
      rw [List.flatMap_cons] at h
      exact absurd (List.append_eq_nil_iff.1 h.symm).1 (append_ne_nil n)
  | cons n l ih =>
    cases l' with
    | nil =>
      rw [List.flatMap_cons] at h
      exact absurd (List.append_eq_nil_iff.1 h).1 (append_ne_nil n)
    | cons n' l' =>
      rw [List.forall_mem_cons] at hl hl'
      have := congrArg nextUtf8Unsafe h
      rw [List.flatMap_cons, List.flatMap_cons, nextUtf8Unsafe_append hl.1,
        nextUtf8Unsafe_append hl'.1, Except.ok.injEq, Prod.mk.injEq] at this
      rw [this.1, ih hl.2 hl'.2 this.2]

theorem flatMap_append_toNat (cs : List Char) :
    (cs.map Char.toNat).flatMap appendUtf8CharacterUnsafe = cs.flatMap String.utf8EncodeChar := by
  rw [List.flatMap_map]
  exact List.flatMap_congr fun c _ ↦ append_toNat c

/-! ## Strings -/

theorem checkUtf8Loop_flatMap (cs : List Char) :
    checkUtf8Loop (cs.flatMap String.utf8EncodeChar ++ [0]) = .ok true := by
  induction cs with
  | nil => rfl
  | cons c cs ih =>
    rw [List.flatMap_cons, List.append_assoc, checkUtf8Loop_encode c (by simp), ih]

theorem codes_flatMap (cs : List Char) {fuel : ℕ}
    (hf : (cs.flatMap String.utf8EncodeChar).length ≤ fuel) :
    codes fuel (cs.flatMap String.utf8EncodeChar) = .ok (cs.map Char.toNat) := by
  induction cs generalizing fuel with
  | nil => cases fuel <;> rfl
  | cons c cs ih =>
    have hpos : 0 < (String.utf8EncodeChar c).length :=
      List.length_pos_of_ne_nil String.utf8EncodeChar_ne_nil
    rw [List.flatMap_cons, List.length_append] at hf
    cases fuel with
    | zero => omega
    | succ fuel =>
      have hne : String.utf8EncodeChar c ++ cs.flatMap String.utf8EncodeChar ≠ [] := by
        simp
      obtain ⟨x, xs, hx⟩ := List.exists_cons_of_ne_nil hne
      have ih := @ih fuel (by omega)
      rw [List.flatMap_cons, hx, codes.eq_def]
      simp only [← hx, nextUtf8Unsafe_encode, ok_bind, ih, pure_eq_ok, List.map_cons]

theorem foldl_appendUtf8Character (cs : List Char) (str : List UInt8) :
    (cs.map Char.toNat).foldl appendUtf8Character str =
      str ++ cs.flatMap String.utf8EncodeChar := by
  induction cs generalizing str with
  | nil => rw [List.flatMap_nil, List.append_nil]; rfl
  | cons c cs ih =>
    rw [List.map_cons, List.foldl_cons, ih, appendUtf8Character_eq, append_toNat,
      List.flatMap_cons, List.append_assoc]

/-- `check_utf8` returns, within the bytes of the string, whether it is valid; then
`next_utf8_unsafe` reads its characters, and what is appended for their codes is the string. -/
theorem checkUtf8_spec (s : List UInt8) :
    (∃ r, checkUtf8 s = .ok r ∧ (r = true ↔ Valid s)) ∧
    (checkUtf8 s = .ok true →
      (∀ t c u, s = t ++ String.utf8EncodeChar c ++ u →
        nextUtf8Unsafe (String.utf8EncodeChar c ++ u) = .ok (c.toNat, u)) ∧
      ∃ cs, codes s.length s = .ok cs ∧ cs.foldl appendUtf8Character [] = s) := by
  obtain ⟨r, hr, hv⟩ := checkUtf8Loop_decides s
  constructor
  · refine ⟨r, hr, hv, ?_⟩
    rintro ⟨cs, rfl⟩
    rw [checkUtf8Loop_flatMap] at hr
    exact (Except.ok.inj hr).symm
  · intro ht
    obtain ⟨cs, rfl⟩ := hv (Except.ok.inj (hr.symm.trans ht))
    refine ⟨fun _ c u _ ↦ nextUtf8Unsafe_encode c u, _, codes_flatMap cs le_rfl, ?_⟩
    rw [foldl_appendUtf8Character, List.nil_append]

theorem checkUtf8_spec_euro : checkUtf8 [0xe2, 0x82, 0xac] = .ok true ∧
    ∃ cs, codes 3 [0xe2, 0x82, 0xac] = .ok cs ∧
      cs.foldl appendUtf8Character [] = [0xe2, 0x82, 0xac] :=
  ⟨rfl, ((checkUtf8_spec [0xe2, 0x82, 0xac]).2 rfl).2⟩

example : checkUtf8 [0xed, 0xa0, 0x80] = .ok false := rfl

end PxcCore.Utf8
