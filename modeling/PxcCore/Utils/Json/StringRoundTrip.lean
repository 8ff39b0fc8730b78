import PxcCore.Utils.Json.Builder
import PxcCore.Utils.Utf8.Check

/-!
# String escapes round trip

What `JsonString` writes for valid UTF-8, `json_string_decode` reads back.  The two are compared
one character at a time: `Transcribes s t` says that the bytes `s` are written as the text `t` and
that `t` is decoded to `s`, whatever follows.
-/

namespace PxcCore.Json

/-! ## Hexadecimal escapes -/

theorem hexToInt_hexDigit : ∀ i < 16, hexToInt (hexDigit i) = i := by decide

theorem hexNum_of_digits {h0 h1 h2 h3 : UInt8} {a b c d : Nat} (e0 : hexToInt h0 = a)
    (e1 : hexToInt h1 = b) (e2 : hexToInt h2 = c) (e3 : hexToInt h3 = d)
    (ha : a < 16) (hb : b < 16) (hc : c < 16) (hd : d < 16) :
    hexNum h0 h1 h2 h3 = some (((a * 16 + b) * 16 + c) * 16 + d) := by
  simp [hexNum, e0, e1, e2, e3, ha.ne, hb.ne, hc.ne, hd.ne]

/-- The four digits of `JsonOneChar` read back as the number they were made from. -/
theorem hexNum_hexDigit {n : Nat} (h : n < 0x10000) :
    hexNum (hexDigit (n >>> 12)) (hexDigit ((n >>> 8) &&& 15)) (hexDigit ((n >>> 4) &&& 15))
      (hexDigit (n &&& 15)) = some n := by
  have h8 : n >>> 8 = n / 256 := Nat.shiftRight_eq_div_pow n 8
  have h4 : n >>> 4 = n / 16 := Nat.shiftRight_eq_div_pow n 4
  have hm (m : Nat) : m &&& 15 = m % 16 := Nat.and_two_pow_sub_one_eq_mod m 4
  rw [Utf8.shr_12, h8, h4, hm, hm, hm]
  rw [hexNum_of_digits (hexToInt_hexDigit (n / 4096) (by omega))
    (hexToInt_hexDigit (n / 256 % 16) (by omega)) (hexToInt_hexDigit (n / 16 % 16) (by omega))
    (hexToInt_hexDigit (n % 16) (by omega)) (by omega) (by omega) (by omega) (by omega)]
  congr 1
  omega

section Escapes

variable {h0 h1 h2 h3 l0 l1 l2 l3 : UInt8} {n m : ℕ}

/-- A `\u` escape of a code point that is not a surrogate. -/
theorem decodeLoop_scalar (hn : hexNum h0 h1 h2 h3 = some n) (hs : ¬(0xD7FF < n ∧ n < 0xE000))
    (src dest : List UInt8) :
    jsonStringDecodeLoop (backslash :: chr 'u' :: h0 :: h1 :: h2 :: h3 :: src) dest =
      jsonStringDecodeLoop src (dest ++ Utf8.appendUtf8CharacterUnsafe n) := by
  rw [jsonStringDecodeLoop.eq_def]
  simp +decide only [if_true, if_false, hn, if_neg hs]

/-- A surrogate pair. -/
theorem decodeLoop_pair (hn : hexNum h0 h1 h2 h3 = some n) (hs : 0xD7FF < n ∧ n < 0xE000)
    (hm : hexNum l0 l1 l2 l3 = some m) (ht : 0xD7FF < m ∧ m < 0xE000) (src dest : List UInt8) :
    jsonStringDecodeLoop (backslash :: chr 'u' :: h0 :: h1 :: h2 :: h3 ::
        backslash :: chr 'u' :: l0 :: l1 :: l2 :: l3 :: src) dest =
      jsonStringDecodeLoop src (dest ++ Utf8.appendUtf8CharacterUnsafe
        ((((n &&& 0x3FF) <<< 10) ||| (m &&& 0x3FF)) + 0x10000)) := by
  rw [jsonStringDecodeLoop.eq_def]
  simp +decide only [if_true, if_false, hn, hm, if_pos hs, if_pos ht]

end Escapes

theorem decodeLoop_jsonOneChar {n : Nat} (h : n < 0x10000) (hs : ¬(0xD7FF < n ∧ n < 0xE000))
    (rest dest : List UInt8) :
    jsonStringDecodeLoop (jsonOneChar n ++ rest) dest =
      jsonStringDecodeLoop rest (dest ++ Utf8.appendUtf8CharacterUnsafe n) :=
  decodeLoop_scalar (hexNum_hexDigit h) hs rest dest

theorem decodeLoop_surrogates {a b : Nat} (ha : 0xD7FF < a ∧ a < 0xE000)
    (hb : 0xD7FF < b ∧ b < 0xE000) (rest dest : List UInt8) :
    jsonStringDecodeLoop (jsonOneChar a ++ (jsonOneChar b ++ rest)) dest =
      jsonStringDecodeLoop rest (dest ++ Utf8.appendUtf8CharacterUnsafe
        ((((a &&& 0x3FF) <<< 10) ||| (b &&& 0x3FF)) + 0x10000)) :=
  decodeLoop_pair (hexNum_hexDigit (by omega)) ha (hexNum_hexDigit (by omega)) hb rest dest

/-- `JsonChar` of a scalar value reads back as its UTF-8 bytes. -/
theorem decodeLoop_jsonChar (c : Char) : ∃ t, jsonChar c.toNat = some t ∧ ∀ rest dest,
    jsonStringDecodeLoop (t ++ rest) dest =
      jsonStringDecodeLoop rest (dest ++ String.utf8EncodeChar c) := by
  have hlt := Utf8.toNat_lt c
  have hs := Utf8.not_surrogate c
  simp only [jsonChar, ← Utf8.append_toNat]
  by_cases h : c.toNat < 0x10000
  · rw [if_pos h, if_neg hs]
    exact ⟨_, rfl, decodeLoop_jsonOneChar h hs⟩
  · rw [if_neg h, if_pos (by omega)]
    refine ⟨_, rfl, fun rest dest ↦ ?_⟩
    have hr : c.toNat >>> 10 = c.toNat / 1024 := Nat.shiftRight_eq_div_pow _ 10
    rw [List.append_assoc, hr, Utf8.and_3ff, decodeLoop_surrogates (by omega) (by omega),
      Utf8.and_3ff, Utf8.and_3ff, Utf8.shiftLeft_or 10 (by omega)]
    congr 4
    omega
/-! ## One character -/

/-- The text `t` that `JsonString` writes for the bytes `s`, and that reads back as `s`. -/
structure Transcribes (s t : List UInt8) : Prop where
  store : ∀ rest sb, jsonStringLoop (s ++ rest) sb = jsonStringLoop rest (sb ++ t)
  decode : ∀ rest dest, jsonStringDecodeLoop (t ++ rest) dest =
    jsonStringDecodeLoop rest (dest ++ s)

theorem Transcribes.nil : Transcribes [] [] := ⟨by simp, by simp⟩

theorem Transcribes.append {s s' t t' : List UInt8} (h : Transcribes s t)
    (h' : Transcribes s' t') : Transcribes (s ++ s') (t ++ t') where
  store rest sb := by rw [List.append_assoc, h.store, h'.store, List.append_assoc]
  decode rest dest := by rw [List.append_assoc, h.decode, h'.decode, List.append_assoc]

/-- The bytes that `JsonString` escapes with a letter, each with its letter. -/
def shortEscapes : List (UInt8 × UInt8) :=
  [(quote, quote), (backslash, backslash), (0x08, chr 'b'), (0x0c, chr 'f'), (0x0a, chr 'n'),
    (0x0d, chr 'r'), (0x09, chr 't')]

theorem Transcribes.short {ch e : UInt8} (h : (ch, e) ∈ shortEscapes) :
    Transcribes [ch] [backslash, e] := by
  simp only [shortEscapes, List.mem_cons, List.not_mem_nil, or_false, Prod.mk.injEq] at h
  rcases h with ⟨rfl, rfl⟩ | ⟨rfl, rfl⟩ | ⟨rfl, rfl⟩ | ⟨rfl, rfl⟩ | ⟨rfl, rfl⟩ | ⟨rfl, rfl⟩ |
    ⟨rfl, rfl⟩
  all_goals
    refine ⟨fun rest sb ↦ ?_, fun rest dest ↦ ?_⟩
    · rw [List.singleton_append, jsonStringLoop]
      simp +decide only [if_true, if_false]
    · simp only [List.cons_append, List.nil_append]
      rw [jsonStringDecodeLoop.eq_def]
      simp +decide only [if_true, if_false]

theorem transcribes_ascii (ch : UInt8) (h : ch < 128) : ∃ t, Transcribes [ch] t := by
  by_cases h1 : ∃ e, (ch, e) ∈ shortEscapes
  · obtain ⟨e, he⟩ := h1
    exact ⟨_, .short he⟩
  simp only [shortEscapes, List.mem_cons, List.not_mem_nil, or_false, Prod.mk.injEq,
    exists_or, exists_and_left, exists_eq, and_true, not_or] at h1
  by_cases h2 : ch ≤ 31
  · refine ⟨jsonOneChar ch.toNat, fun rest sb ↦ ?_, fun rest dest ↦ ?_⟩
    · rw [List.singleton_append, jsonStringLoop]
      simp only [h1, h2, if_true, if_false]
    · have hn : ch.toNat ≤ 31 := h2
      rw [decodeLoop_jsonOneChar (by omega) (by omega), Utf8.append_one (by omega),
        UInt8.ofNat_toNat]
  · refine ⟨[ch], fun rest sb ↦ ?_, fun rest dest ↦ ?_⟩
    · rw [List.singleton_append, jsonStringLoop]
      simp only [h1, h2, if_false, UInt8.not_le.2 h]
    · rw [List.singleton_append, jsonStringDecodeLoop.eq_def]
      simp only [h1, if_false]

/-! ### Bytes of a longer sequence -/

theorem lead_two : ∀ x < 32, 2 ≤ x → (0xc0 + x) &&& 0x40 ≠ 0 ∧ (0xc0 + x) &&& 0x20 = 0 ∧
    (0xc0 + x) &&& 0x1e ≠ 0 ∧ (0xc0 + x) &&& 0x1f = x := by decide

theorem lead_three : ∀ x < 16, (0xe0 + x) &&& 0x40 ≠ 0 ∧ (0xe0 + x) &&& 0x20 ≠ 0 ∧
    (0xe0 + x) &&& 0x10 = 0 ∧ (0xe0 + x) &&& 0x0f = x := by decide

theorem lead_four : ∀ x < 8, (0xf0 + x) &&& 0x40 ≠ 0 ∧ (0xf0 + x) &&& 0x20 ≠ 0 ∧
    (0xf0 + x) &&& 0x10 ≠ 0 ∧ (0xf0 + x) &&& 0x08 = 0 ∧ (0xf0 + x) &&& 0x07 = x := by decide

theorem continuation : ∀ y < 64, (0x80 + y) &&& 0xc0 = 0x80 ∧ (0x80 + y) &&& 0x3f = y ∧
    (0x80 + y) &&& 0x20 = y &&& 0x20 ∧ (0x80 + y) &&& 0x30 = y &&& 0x30 := by decide

/-- The second byte of a three-byte sequence does not make it overlong. -/
theorem not_overlong_three : ∀ x < 16, ∀ y < 64, 0x20 ≤ x * 64 + y → x ||| (y &&& 0x20) ≠ 0 := by
  decide

theorem not_overlong_four : ∀ x < 8, ∀ y < 64, 0x10 ≤ x * 64 + y → x ||| (y &&& 0x30) ≠ 0 := by
  decide

/-- A byte from 128 on takes none of the branches for ASCII. -/
theorem not_ascii {n : Nat} (h : 128 ≤ n) (h' : n < 256) :
    (∀ c ∈ [quote, backslash, 0x08, 0x0c, 0x0a, 0x0d, 0x09], UInt8.ofNat n ≠ c) ∧
      ¬UInt8.ofNat n ≤ 31 ∧ 128 ≤ UInt8.ofNat n := by
  have hn : (UInt8.ofNat n).toNat = n := Utf8.toNat_ofNat_of_lt h'
  refine ⟨fun c hc hq ↦ ?_, fun hle ↦ ?_, ?_⟩
  · have hlt : c < 128 := by
      simp only [List.mem_cons, List.not_mem_nil, or_false] at hc
      rcases hc with rfl | rfl | rfl | rfl | rfl | rfl | rfl <;> decide
    rw [← hq, UInt8.lt_iff_toNat_lt, hn] at hlt
    exact absurd hlt (by simpa using h)
  · rw [UInt8.le_iff_toNat_le, hn] at hle
    exact absurd (hle.trans (by decide : _ ≤ 127)) (by omega)
  · rw [UInt8.le_iff_toNat_le, hn]
    exact h

theorem two_store {n : Nat} (h : 0x7f < n) (h' : n ≤ 0x7ff) {t : List UInt8}
    (ht : jsonChar n = some t) (rest sb : List UInt8) :
    jsonStringLoop (Utf8.appendUtf8CharacterUnsafe n ++ rest) sb =
      jsonStringLoop rest (sb ++ t) := by
  obtain ⟨a1, a2, a3, a4⟩ := lead_two (n / 64) (by omega) (by omega)
  obtain ⟨b1, b2, -, -⟩ := continuation (n % 64) (by omega)
  obtain ⟨hc, h31, h128⟩ := not_ascii (n := 0xc0 + n / 64) (by omega) (by omega)
  simp only [List.forall_mem_cons, List.not_mem_nil, false_imp_iff, implies_true, and_true] at hc
  rw [Utf8.append_two h h', List.cons_append, List.cons_append, List.nil_append, jsonStringLoop]
  simp only [hc, h31, h128, if_true, if_false,
    Utf8.toNat_ofNat_of_lt (n := 0xc0 + n / 64) (by omega),
    Utf8.toNat_ofNat_of_lt (n := 0x80 + n % 64) (by omega), a1, a2, a3, a4, b1, b2,
    ne_eq, not_true_eq_false, Utf8.shiftLeft_or 6 (show n % 64 < 2 ^ 6 by omega)]
  rw [show n / 64 * 2 ^ 6 + n % 64 = n by omega, ht]

theorem three_store {n : Nat} (h : 0x7ff < n) (h' : n ≤ 0xffff) {t : List UInt8}
    (ht : jsonChar n = some t) (rest sb : List UInt8) :
    jsonStringLoop (Utf8.appendUtf8CharacterUnsafe n ++ rest) sb =
      jsonStringLoop rest (sb ++ t) := by
  obtain ⟨a1, a2, a3, a4⟩ := lead_three (n / 4096) (by omega)
  obtain ⟨b1, b2, b3, -⟩ := continuation (n / 64 % 64) (by omega)
  obtain ⟨c1, c2, -, -⟩ := continuation (n % 64) (by omega)
  have ho := not_overlong_three (n / 4096) (by omega) (n / 64 % 64) (by omega) (by omega)
  obtain ⟨hc, h31, h128⟩ := not_ascii (n := 0xe0 + n / 4096) (by omega) (by omega)
  simp only [List.forall_mem_cons, List.not_mem_nil, false_imp_iff, implies_true, and_true] at hc
  rw [Utf8.append_three h h', List.cons_append, List.cons_append, List.cons_append,
    List.nil_append, jsonStringLoop]
  simp only [hc, h31, h128, if_true, if_false,
    Utf8.toNat_ofNat_of_lt (n := 0xe0 + n / 4096) (by omega),
    Utf8.toNat_ofNat_of_lt (n := 0x80 + n / 64 % 64) (by omega),
    Utf8.toNat_ofNat_of_lt (n := 0x80 + n % 64) (by omega), a1, a2, a3, a4, b1, b2, b3, c1, c2, ho,
    ne_eq, not_true_eq_false]
  rw [show ((n / 4096) <<< 12 ||| (n / 64 % 64) <<< 6) ||| n % 64 = n from ?_, ht]
  rw [Nat.or_assoc, Utf8.shiftLeft_or 6 (by omega), Utf8.shiftLeft_or 12 (by omega)]
  omega

theorem four_store {n : Nat} (h : 0xffff < n) (h' : n < 0x110000) {t : List UInt8}
    (ht : jsonChar n = some t) (rest sb : List UInt8) :
    jsonStringLoop (Utf8.appendUtf8CharacterUnsafe n ++ rest) sb =
      jsonStringLoop rest (sb ++ t) := by
  obtain ⟨a1, a2, a3, a4, a5⟩ := lead_four (n / 262144) (by omega)
  obtain ⟨b1, b2, -, b3⟩ := continuation (n / 4096 % 64) (by omega)
  obtain ⟨c1, c2, -, -⟩ := continuation (n / 64 % 64) (by omega)
  obtain ⟨d1, d2, -, -⟩ := continuation (n % 64) (by omega)
  have ho := not_overlong_four (n / 262144) (by omega) (n / 4096 % 64) (by omega) (by omega)
  obtain ⟨hc, h31, h128⟩ := not_ascii (n := 0xf0 + n / 262144) (by omega) (by omega)
  simp only [List.forall_mem_cons, List.not_mem_nil, false_imp_iff, implies_true, and_true] at hc
  rw [Utf8.append_four h (by omega), List.cons_append, List.cons_append, List.cons_append,
    List.cons_append, List.nil_append, jsonStringLoop]
  simp only [hc, h31, h128, if_true, if_false,
    Utf8.toNat_ofNat_of_lt (n := 0xf0 + n / 262144) (by omega),
    Utf8.toNat_ofNat_of_lt (n := 0x80 + n / 4096 % 64) (by omega),
    Utf8.toNat_ofNat_of_lt (n := 0x80 + n / 64 % 64) (by omega),
    Utf8.toNat_ofNat_of_lt (n := 0x80 + n % 64) (by omega), a1, a2, a3, a4, a5, b1, b2, b3, c1, c2,
    d1, d2, ho, ne_eq, not_true_eq_false]
  rw [show (((n / 262144) <<< 18 ||| (n / 4096 % 64) <<< 12) ||| (n / 64 % 64) <<< 6) ||| n % 64 = n
    from ?_, ht]
  rw [Nat.or_assoc, Utf8.shiftLeft_or 6 (by omega), Nat.or_assoc, Utf8.shiftLeft_or 12 (by omega),
    Utf8.shiftLeft_or 18 (by omega)]
  omega

theorem transcribes_char (c : Char) : ∃ t, Transcribes (String.utf8EncodeChar c) t := by
  have hlt := Utf8.toNat_lt c
  by_cases h1 : c.toNat ≤ 0x7f
  · rw [← Utf8.append_toNat, Utf8.append_one h1]
    apply transcribes_ascii
    rw [UInt8.lt_iff_toNat_lt, Utf8.toNat_ofNat_of_lt (by omega)]
    exact Nat.lt_succ_of_le h1
  obtain ⟨t, ht, hd⟩ := decodeLoop_jsonChar c
  refine ⟨t, ?_, hd⟩
  rw [← Utf8.append_toNat]
  by_cases h2 : c.toNat ≤ 0x7ff
  · exact two_store (by omega) h2 ht
  by_cases h3 : c.toNat ≤ 0xffff
  · exact three_store (by omega) h3 ht
  · exact four_store (by omega) hlt ht

/-- Every valid UTF-8 text is written by `JsonString` without a failed `CHECK` and read back. -/
theorem transcribes_of_valid {s : List UInt8} (h : Utf8.Valid s) : ∃ t, Transcribes s t := by
  obtain ⟨cs, rfl⟩ := h
  induction cs with
  | nil => exact ⟨[], .nil⟩
  | cons c cs ih =>
    obtain ⟨t, ht⟩ := transcribes_char c
    obtain ⟨t', ht'⟩ := ih
    exact ⟨t ++ t', ht.append ht'⟩

/-! ## What is written is valid -/

theorem scalar_of_jsonChar {n : ℕ} {t : List UInt8} (h : jsonChar n = some t) :
    ¬(0xD7FF < n ∧ n < 0xE000) ∧ n ≤ 0x10ffff := by
  rw [jsonChar] at h
  split_ifs at h with h1 h2 h3
  · exact ⟨h2, by omega⟩
  · exact ⟨by omega, h3⟩

/-- `JsonString` writes nothing that is not valid UTF-8: the `CHECK`s refuse it. -/
theorem valid_of_jsonStringLoop {s sb t : List UInt8} (h : jsonStringLoop s sb = some t) :
    Utf8.Valid s := by
  have one {ch : UInt8} {s : List UInt8} (hch : ch.toNat < 0x80) (hs : Utf8.Valid s) :
      Utf8.Valid (ch :: s) := .of_exists (Utf8.exists_one hch) hs
  have tail {b : UInt8} (hb : ¬b.toNat &&& 0xc0 ≠ 0x80) : Utf8.Tail b :=
    (Utf8.tail_iff b).1 (not_not.1 hb)
  fun_induction jsonStringLoop s sb with
  | case1 => exact .nil
  | case2 s sb ih
  | case3 s sb _ ih
  | case4 s sb _ _ ih
  | case5 s sb _ _ _ ih
  | case6 s sb _ _ _ _ ih
  | case7 s sb _ _ _ _ _ ih
  | case8 s sb _ _ _ _ _ _ ih =>
    exact one (by decide) (ih h)
  | case9 ch s sb _ _ _ _ _ _ _ h31 ih =>
    exact one (by have : ch.toNat ≤ 31 := h31; omega) (ih h)
  | case15 ch sb _ _ _ _ _ _ _ _ h128 a h40 b s b' hb h20 h1e t' ht ih =>
    have ha := ch.toNat_lt
    have h128 : 128 ≤ ch.toNat := h128
    rw [Utf8.and_40] at h40
    rw [Utf8.and_20] at h20
    rw [Utf8.and_1e] at h1e
    exact .of_exists (Utf8.exists_two (by omega) (by omega) (tail hb)) (ih h)
  | case20 ch sb _ _ _ _ _ _ _ _ h128 a h40 b b' hb h20 c s c' hc h10 hx t' ht ih =>
    have ha := ch.toNat_lt
    have h128 : 128 ≤ ch.toNat := h128
    obtain ⟨hb₁, hb₂⟩ := tail hb
    obtain ⟨hc₁, hc₂⟩ := tail hc
    rw [Utf8.and_40] at h40
    rw [Utf8.and_20] at h20
    rw [Utf8.and_10] at h10
    rw [Nat.or_eq_zero_iff, Utf8.and_0f, Utf8.and_20] at hx
    rw [Utf8.and_0f, Utf8.and_3f, Utf8.and_3f, Nat.lor_assoc, Utf8.shiftLeft_or 6 (by omega),
      Utf8.shiftLeft_or 12 (by omega)] at ht
    have hn := scalar_of_jsonChar ht
    exact .of_exists (Utf8.exists_three (by omega) (by omega) (tail hb) (tail hc) (by omega)
      (by omega)) (ih h)
  | case25 ch sb _ _ _ _ _ _ _ _ h128 a h40 b b' hb h20 c c' hc h10 d s d' hd h08 hx t' ht ih =>
    have ha := ch.toNat_lt
    have h128 : 128 ≤ ch.toNat := h128
    obtain ⟨hb₁, hb₂⟩ := tail hb
    obtain ⟨hc₁, hc₂⟩ := tail hc
    obtain ⟨hd₁, hd₂⟩ := tail hd
    rw [Utf8.and_40] at h40
    rw [Utf8.and_20] at h20
    rw [Utf8.and_10] at h10
    rw [Utf8.and_08] at h08
    rw [Nat.or_eq_zero_iff, Utf8.and_07, Utf8.and_30] at hx
    rw [Utf8.and_07, Utf8.and_3f, Utf8.and_3f, Utf8.and_3f, Nat.lor_assoc, Nat.lor_assoc,
      Utf8.shiftLeft_or 6 (by omega), Utf8.shiftLeft_or 12 (by omega),
      Utf8.shiftLeft_or 18 (by omega)] at ht
    have hn := scalar_of_jsonChar ht
    exact .of_exists (Utf8.exists_four (by omega) (by omega) (tail hb) (tail hc) (tail hd)
      (by omega) (by omega)) (ih h)
  | case27 ch s sb _ _ _ _ _ _ _ _ h128 ih =>
    exact one (not_le.1 h128) (ih h)
  | _ => cases h

end PxcCore.Json
