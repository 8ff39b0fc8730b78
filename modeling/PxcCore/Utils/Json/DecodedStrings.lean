import PxcCore.Utils.Json.RoundTrip

/-!
# The strings of a decoded value

`json_string_decode` writes a `\u` escape of a surrogate that has no partner as it is, in three
bytes that are not UTF-8 and that `JsonString` refuses.  Otherwise what it decodes from UTF-8 is
UTF-8.  `Keeps` follows both through the parser.
-/

namespace PxcCore.Json

/-! ## Escapes of surrogates -/

/-- A code point that UTF-16 uses for half of a character. -/
def isSurrogate (n : ℕ) : Bool := 0xD7FF < n ∧ n < 0xE000

/-- Whether in the strings of a text every `\u` escape of a surrogate belongs to a pair of two.
The flag says whether the text starts inside of a string. -/
def surrogatesPaired : Bool → List UInt8 → Bool
  | _, [] => true
  | false, c :: s => surrogatesPaired (c = quote) s
  | true, c :: s =>
    if c = quote then surrogatesPaired false s
    else if c = backslash then
      match s with
      | [] => true
      | e :: s =>
        if e = chr 'u' then
          match s with
          | h0 :: h1 :: h2 :: h3 :: s =>
            if (hexNum h0 h1 h2 h3).any isSurrogate then
              match s with
              | b0 :: b1 :: l0 :: l1 :: l2 :: l3 :: s =>
                if b0 = backslash ∧ b1 = chr 'u' ∧ (hexNum l0 l1 l2 l3).any isSurrogate then
                  surrogatesPaired true s
                else false
              | _ => false
            else surrogatesPaired true s
          | _ => true
        else surrogatesPaired true s
    else surrogatesPaired true s

theorem hexToInt_ascii (c : UInt8) : hexToInt c = 16 ∨ c.toNat < 0x80 ∧ hexToInt c < 16 := by
  rw [hexToInt]
  split_ifs with h h'
  · have h₀ : 48 ≤ c.toNat := h.1
    have h₉ : c.toNat ≤ 57 := h.2
    refine .inr ⟨by omega, ?_⟩
    rw [UInt8.toNat_sub_of_le _ _ h.1]
    change c.toNat - 48 < 16
    omega
  · obtain ⟨ha, hf⟩ := h'
    have hle : c.toNat ≤ (c ||| 0x20).toNat := by
      rw [UInt8.toNat_or]
      exact Nat.left_le_or
    have hf : (c ||| 0x20).toNat ≤ 102 := hf
    have ha' : 97 ≤ (c ||| 0x20).toNat := ha
    refine .inr ⟨by omega, ?_⟩
    rw [UInt8.toNat_add, UInt8.toNat_sub_of_le _ _ ha]
    change ((c ||| 0x20).toNat - 97 + 10) % 256 < 16
    omega
  · exact .inl rfl

/-- The digits of an escape are ASCII. -/
theorem hexNum_ascii {h0 h1 h2 h3 : UInt8} {n : ℕ} (h : hexNum h0 h1 h2 h3 = some n) :
    h0.toNat < 0x80 ∧ h1.toNat < 0x80 ∧ h2.toNat < 0x80 ∧ h3.toNat < 0x80 ∧ n < 0x10000 := by
  simp only [hexNum, List.foldlM_cons, List.foldlM_nil, Option.bind_eq_bind] at h
  rcases hexToInt_ascii h0 with h0' | ⟨h0', b0⟩
  · simp [h0'] at h
  rcases hexToInt_ascii h1 with h1' | ⟨h1', b1⟩
  · simp [h1', b0.ne] at h
  rcases hexToInt_ascii h2 with h2' | ⟨h2', b2⟩
  · simp [h2', b0.ne, b1.ne] at h
  rcases hexToInt_ascii h3 with h3' | ⟨h3', b3⟩
  · simp [h3', b0.ne, b1.ne, b2.ne] at h
  simp [b0.ne, b1.ne, b2.ne, b3.ne] at h
  exact ⟨h0', h1', h2', h3', by omega⟩

/-! ## One step of the decoder -/

variable {src dest d rest : List UInt8}

theorem decodeLoop_plain {c : UInt8} (hq : c ≠ quote) (hb : c ≠ backslash) :
    jsonStringDecodeLoop (c :: src) dest = jsonStringDecodeLoop src (dest ++ [c]) := by
  rw [jsonStringDecodeLoop.eq_def]
  simp only [if_neg hq, if_neg hb]

theorem paired_plain {c : UInt8} (hq : c ≠ quote) (hb : c ≠ backslash) :
    surrogatesPaired true (c :: src) = surrogatesPaired true src := by
  rw [surrogatesPaired.eq_def]
  simp only [if_neg hq, if_neg hb]

/-- The bytes of a character that is not ASCII are copied. -/
theorem decodeLoop_bytes {bytes : List UInt8} (h : ∀ c ∈ bytes, 0x80 ≤ c.toNat)
    (src dest : List UInt8) :
    jsonStringDecodeLoop (bytes ++ src) dest = jsonStringDecodeLoop src (dest ++ bytes) ∧
      surrogatesPaired true (bytes ++ src) = surrogatesPaired true src := by
  induction bytes generalizing dest with
  | nil => simp
  | cons c bytes ih =>
    rw [List.forall_mem_cons] at h
    have hq : c ≠ quote := by rintro rfl; exact absurd h.1 (by decide)
    have hb : c ≠ backslash := by rintro rfl; exact absurd h.1 (by decide)
    obtain ⟨hl, hp⟩ := ih h.2 (dest ++ [c])
    rw [List.cons_append, decodeLoop_plain hq hb, paired_plain hq hb, hl, hp, List.append_assoc]
    exact ⟨rfl, rfl⟩

/-- What `\` and a letter other than `u` stand for. -/
def unescape (e : UInt8) : UInt8 :=
  if e = chr 'b' then 0x08
  else if e = chr 'f' then 0x0c
  else if e = chr 'n' then 0x0a
  else if e = chr 'r' then 0x0d
  else if e = chr 't' then 0x09
  else e

theorem decodeLoop_unescape {e : UInt8} (he : e ≠ chr 'u') (src dest : List UInt8) :
    jsonStringDecodeLoop (backslash :: e :: src) dest =
      jsonStringDecodeLoop src (dest ++ [unescape e]) := by
  rw [jsonStringDecodeLoop.eq_def]
  simp only [if_neg (by decide : backslash ≠ quote), if_true, if_neg he, unescape]
  split_ifs <;> rfl

/-- Only ASCII letters stand for something else, which is ASCII. -/
theorem unescape_ascii (e : UInt8) :
    unescape e = e ∨ (unescape e).toNat < 0x80 ∧ e.toNat < 0x80 := by
  unfold unescape
  split_ifs with hb hf hn hr ht
  · exact .inr (hb ▸ by decide)
  · exact .inr (hf ▸ by decide)
  · exact .inr (hn ▸ by decide)
  · exact .inr (hr ▸ by decide)
  · exact .inr (ht ▸ by decide)
  · exact .inl rfl

theorem paired_escape {e : UInt8} (he : e ≠ chr 'u') :
    surrogatesPaired true (backslash :: e :: src) = surrogatesPaired true src := by
  rw [surrogatesPaired.eq_def]
  simp only [if_neg (by decide : backslash ≠ quote), if_true, if_neg he]

section

variable {h0 h1 h2 h3 : UInt8}

/-- A `\u` escape that is no surrogate. -/
theorem paired_scalar {n : ℕ} (h : hexNum h0 h1 h2 h3 = some n) (hs : isSurrogate n = false) :
    surrogatesPaired true (backslash :: chr 'u' :: h0 :: h1 :: h2 :: h3 :: src) =
      surrogatesPaired true src := by
  rw [surrogatesPaired.eq_def]
  simp +decide only [if_true, if_false, h, Option.any_some, hs]

theorem paired_pair {l0 l1 l2 l3 : UInt8} (h : (hexNum h0 h1 h2 h3).any isSurrogate = true)
    (h' : (hexNum l0 l1 l2 l3).any isSurrogate = true) :
    surrogatesPaired true (backslash :: chr 'u' :: h0 :: h1 :: h2 :: h3 :: backslash :: chr 'u' ::
      l0 :: l1 :: l2 :: l3 :: src) = surrogatesPaired true src := by
  rw [surrogatesPaired.eq_def]
  simp +decide only [if_true, if_false, h, h']

/-- A surrogate with no partner behind it. -/
theorem paired_lone (h : (hexNum h0 h1 h2 h3).any isSurrogate = true)
    (hno : ∀ l0 l1 l2 l3 rest, src = backslash :: chr 'u' :: l0 :: l1 :: l2 :: l3 :: rest →
      (hexNum l0 l1 l2 l3).any isSurrogate = false) :
    surrogatesPaired true (backslash :: chr 'u' :: h0 :: h1 :: h2 :: h3 :: src) = false := by
  rw [surrogatesPaired.eq_def]
  simp +decide only [if_true, if_false, h]
  split
  · refine if_neg ?_
    rintro ⟨rfl, rfl, hany⟩
    exact absurd ((hno _ _ _ _ _ rfl).symm.trans hany) Bool.false_ne_true
  · rfl

end

/-- The digits of an escape leave valid text behind them. -/
theorem valid_of_digits {h0 h1 h2 h3 : UInt8} {n : ℕ}
    (hv : Utf8.Valid (h0 :: h1 :: h2 :: h3 :: src)) (h : hexNum h0 h1 h2 h3 = some n) :
    Utf8.Valid src := by
  obtain ⟨b0, b1, b2, b3, -⟩ := hexNum_ascii h
  exact (((hv.tail b0).tail b1).tail b2).tail b3

/-- How the decoder goes on behind `\u`: after a code point, after a surrogate that stands alone, or
after a pair of two. -/
theorem of_decodeLoop_unicode
    (h : jsonStringDecodeLoop (backslash :: chr 'u' :: src) dest = .ok (d, rest)) :
    ∃ h0 h1 h2 h3 n src', src = h0 :: h1 :: h2 :: h3 :: src' ∧ hexNum h0 h1 h2 h3 = some n ∧
      (isSurrogate n = false ∧
          jsonStringDecodeLoop src' (dest ++ Utf8.appendUtf8CharacterUnsafe n) = .ok (d, rest) ∨
        isSurrogate n = true ∧
          (∀ l0 l1 l2 l3 tail, src' = backslash :: chr 'u' :: l0 :: l1 :: l2 :: l3 :: tail →
            (hexNum l0 l1 l2 l3).any isSurrogate = false) ∧
          jsonStringDecodeLoop src' (dest ++ Utf8.appendUtf8CharacterUnsafe n) = .ok (d, rest) ∨
        isSurrogate n = true ∧ ∃ l0 l1 l2 l3 m src'',
          src' = backslash :: chr 'u' :: l0 :: l1 :: l2 :: l3 :: src'' ∧
          hexNum l0 l1 l2 l3 = some m ∧ isSurrogate m = true ∧
          jsonStringDecodeLoop src'' (dest ++ Utf8.appendUtf8CharacterUnsafe
            ((((n &&& 0x3FF) <<< 10) ||| (m &&& 0x3FF)) + 0x10000)) = .ok (d, rest)) := by
  rw [jsonStringDecodeLoop.eq_def] at h
  simp +decide only [if_true, if_false] at h
  split at h
  case h_2 => cases h
  case h_1 h0 h1 h2 h3 src =>
  cases hnum : hexNum h0 h1 h2 h3 with
  | none => simp [hnum] at h
  | some num =>
    refine ⟨h0, h1, h2, h3, num, src, rfl, hnum, ?_⟩
    simp only [hnum] at h
    by_cases hs : 0xD7FF < num ∧ num < 0xE000
    case neg =>
      rw [if_neg hs] at h
      exact .inl ⟨decide_eq_false hs, h⟩
    refine .inr ?_
    have hs' : isSurrogate num = true := decide_eq_true hs
    rw [if_pos hs] at h
    split at h
    case h_2 hno => exact .inl ⟨hs', fun _ _ _ _ _ he ↦ (hno _ _ _ _ _ _ _ he).elim, h⟩
    case h_1 b0 b1 l0 l1 l2 l3 src =>
    by_cases hpair : b0 = backslash ∧ b1 = chr 'u' ∧ (hexNum l0 l1 l2 l3).any isSurrogate = true
    case neg =>
      refine .inl ⟨hs', ?_, ?_⟩
      · rintro l0' l1' l2' l3' rest' ⟨⟩
        exact Bool.eq_false_iff.2 fun hany ↦ hpair ⟨rfl, rfl, hany⟩
      · by_cases hb : b0 = backslash ∧ b1 = chr 'u'
        case neg => rwa [if_neg hb] at h
        rw [if_pos hb] at h
        cases hnew : hexNum l0 l1 l2 l3 with
        | none => simp [hnew] at h
        | some newNum =>
          simp only [hnew] at h
          rwa [if_neg fun hs₂ ↦ hpair ⟨hb.1, hb.2, by simp [hnew, isSurrogate, hs₂]⟩] at h
    rw [if_pos ⟨hpair.1, hpair.2.1⟩] at h
    obtain ⟨rfl, rfl, hany⟩ := hpair
    cases hnew : hexNum l0 l1 l2 l3 with
    | none => simp [hnew] at hany
    | some newNum =>
      rw [hnew] at hany
      have hs₂ : 0xD7FF < newNum ∧ newNum < 0xE000 := of_decide_eq_true hany
      simp only [hnew, if_pos hs₂] at h
      exact .inr ⟨hs', l0, l1, l2, l3, newNum, src, rfl, hnew, hany, h⟩

/-- A `\u` escape, or a pair of two, gives one code point. -/
theorem decodeLoop_unicode (hv : Utf8.Valid src)
    (h : jsonStringDecodeLoop (backslash :: chr 'u' :: src) dest = .ok (d, rest)) :
    ∃ n src', n < 0x110000 ∧ Utf8.Valid src' ∧ src'.length < src.length ∧
      jsonStringDecodeLoop src' (dest ++ Utf8.appendUtf8CharacterUnsafe n) = .ok (d, rest) ∧
      (surrogatesPaired true (backslash :: chr 'u' :: src) = true ↔
        isSurrogate n = false ∧ surrogatesPaired true src' = true) := by
  obtain ⟨h0, h1, h2, h3, num, src, rfl, hnum, hcase⟩ := of_decodeLoop_unicode h
  have hv' := valid_of_digits hv hnum
  have hlt := (hexNum_ascii hnum).2.2.2.2
  have any_iff : (hexNum h0 h1 h2 h3).any isSurrogate = isSurrogate num := by
    rw [hnum, Option.any_some]
  rcases hcase with ⟨hs, hl⟩ | ⟨hs, hno, hl⟩ | ⟨hs, l0, l1, l2, l3, newNum, src, rfl, hnew, hs₂, hl⟩
  · refine ⟨num, src, by omega, hv', by simp only [List.length_cons]; omega, hl, ?_⟩
    rw [paired_scalar hnum hs, hs, eq_self, true_and]
  · refine ⟨num, src, by omega, hv', by simp only [List.length_cons]; omega, hl, ?_⟩
    rw [paired_lone (any_iff.trans hs) hno, hs]
    exact iff_of_false Bool.false_ne_true fun h ↦ Bool.noConfusion h.1
  · have hsum : (((num &&& 0x3FF) <<< 10) ||| (newNum &&& 0x3FF)) + 0x10000 =
        num % 1024 * 2 ^ 10 + newNum % 1024 + 0x10000 := by
      rw [Utf8.and_3ff, Utf8.and_3ff, Utf8.shiftLeft_or 10 (by omega)]
    refine ⟨_, src, ?_, valid_of_digits ((hv'.tail (by decide)).tail (by decide)) hnew,
      by simp only [List.length_cons]; omega, hl, ?_⟩
    · rw [hsum]
      omega
    · have hno : isSurrogate (num % 1024 * 2 ^ 10 + newNum % 1024 + 0x10000) = false := by
        refine decide_eq_false ?_
        omega
      rw [hsum, hno, paired_pair (any_iff.trans hs) (by rw [hnew, Option.any_some, hs₂]), eq_self,
        true_and]

/-! ## Strings -/

/-- A string read from `src` after `dest`: it goes on with code points, and these are scalar values
if the surrogates that were read are paired. -/
structure Decoded (src dest d rest : List UInt8) : Prop where
  valid : Utf8.Valid rest
  codes : ∃ codes : List ℕ, d = dest ++ codes.flatMap Utf8.appendUtf8CharacterUnsafe ∧
    (∀ n ∈ codes, n < 0x110000) ∧
    (surrogatesPaired true src = true ↔
      (∀ n ∈ codes, isSurrogate n = false) ∧ surrogatesPaired false rest = true)

/-- One more code point in front. -/
theorem Decoded.cons {src' : List UInt8} {n : ℕ} (hn : n < 0x110000)
    (h : Decoded src (dest ++ Utf8.appendUtf8CharacterUnsafe n) d rest)
    (hp : surrogatesPaired true src' = true ↔
      isSurrogate n = false ∧ surrogatesPaired true src = true) :
    Decoded src' dest d rest := by
  obtain ⟨hv, codes, hd, hlt, hc⟩ := h
  refine ⟨hv, n :: codes, ?_, List.forall_mem_cons.2 ⟨hn, hlt⟩, ?_⟩
  · rw [hd, List.flatMap_cons, List.append_assoc]
  · rw [hp, hc, List.forall_mem_cons, and_assoc]

theorem isSurrogate_toNat (c : Char) : isSurrogate c.toNat = false := by
  have := Utf8.not_surrogate c
  simpa [isSurrogate] using this

theorem Decoded.congr {src' : List UInt8} (h : Decoded src dest d rest)
    (hp : surrogatesPaired true src' = surrogatesPaired true src) : Decoded src' dest d rest := by
  obtain ⟨hv, codes, hd, hlt, hc⟩ := h
  exact ⟨hv, codes, hd, hlt, by rw [hp, hc]⟩

/-- One more character in front. -/
theorem Decoded.char {src' bytes : List UInt8} (hc : ∃ c, String.utf8EncodeChar c = bytes)
    (h : Decoded src (dest ++ bytes) d rest)
    (hp : surrogatesPaired true src' = surrogatesPaired true src) : Decoded src' dest d rest := by
  obtain ⟨c, rfl⟩ := hc
  rw [← Utf8.append_toNat] at h
  refine h.cons (Utf8.toNat_lt c) ?_
  rw [isSurrogate_toNat, hp, eq_self, true_and]

theorem jsonStringDecodeLoop_decoded (hv : Utf8.Valid src)
    (h : jsonStringDecodeLoop src dest = .ok (d, rest)) : Decoded src dest d rest := by
  induction hn : src.length using Nat.strong_induction_on generalizing src dest with
  | h n ih =>
    subst hn
    cases src with
    | nil => cases h
    | cons c src =>
      rcases hv.cons_cases with ⟨hc, hv'⟩ | ⟨hc, bytes, t, hs, hne, hall, hch, hvt⟩
      swap
      · rw [hs] at h ⊢
        obtain ⟨hl, hp⟩ := decodeLoop_bytes hall t dest
        rw [hl] at h
        have hlt : t.length < (c :: src).length := by
          rw [hs, List.length_append]
          have := List.length_pos_of_ne_nil hne
          omega
        exact (ih _ hlt hvt h rfl).char hch hp
      by_cases hq : c = quote
      · subst hq
        rw [jsonStringDecodeLoop.eq_def] at h
        simp only [if_true, Except.ok.injEq, Prod.mk.injEq] at h
        obtain ⟨rfl, rfl⟩ := h
        exact ⟨hv', [], by simp, List.forall_mem_nil _, by rw [surrogatesPaired.eq_def]; simp⟩
      by_cases hb : c = backslash
      swap
      · rw [decodeLoop_plain hq hb] at h
        exact (ih _ (Nat.lt_succ_self _) hv' h rfl).char (Utf8.exists_one hc) (paired_plain hq hb)
      subst hb
      cases src with
      | nil => cases h
      | cons e src =>
        by_cases he : e = chr 'u'
        swap
        · rcases hv'.cons_cases with ⟨hea, hv''⟩ | ⟨hea, -⟩
          · have hb : (unescape e).toNat < 0x80 := by
              rcases unescape_ascii e with hbe | hbe
              · rwa [hbe]
              · exact hbe.1
            rw [decodeLoop_unescape he] at h
            exact (ih _ (by simp only [List.length_cons]; omega) hv'' h rfl).char
              (Utf8.exists_one hb) (paired_escape he)
          · -- a character that is not ASCII does not notice the backslash
            have hb : unescape e = e := by
              rcases unescape_ascii e with hbe | hbe
              · exact hbe
              · exact absurd hbe.2 (by omega)
            have heq : e ≠ quote := by rintro rfl; exact absurd hea (by decide)
            have heb : e ≠ backslash := by rintro rfl; exact absurd hea (by decide)
            rw [decodeLoop_unescape he, hb, ← decodeLoop_plain heq heb] at h
            refine (ih _ (Nat.lt_succ_self _) hv' h rfl).congr ?_
            rw [paired_escape he, paired_plain heq heb]
        subst he
        have hv'' : Utf8.Valid src := hv'.tail (by decide)
        obtain ⟨n, src', hn, hv', hlt, hl, hp⟩ := decodeLoop_unicode hv'' h
        exact (ih _ (by simp only [List.length_cons]; omega) hv' hl rfl).cons hn hp

/-- Of code points only surrogates are not valid. -/
theorem valid_codes_iff {codes : List ℕ} (hlt : ∀ n ∈ codes, n < 0x110000) :
    Utf8.Valid (codes.flatMap Utf8.appendUtf8CharacterUnsafe) ↔
      ∀ n ∈ codes, isSurrogate n = false := by
  constructor
  · rintro ⟨cs, hcs⟩ n hn
    rw [← Utf8.flatMap_append_toNat] at hcs
    have hlt' : ∀ n ∈ cs.map Char.toNat, n < 0x200000 := by
      intro n hn
      obtain ⟨c, -, rfl⟩ := List.mem_map.1 hn
      exact (Utf8.toNat_lt c).trans (by decide)
    have := Utf8.flatMap_append_inj (fun n hn ↦ (hlt n hn).trans (by decide)) hlt' hcs
    rw [this] at hn
    obtain ⟨c, -, rfl⟩ := List.mem_map.1 hn
    exact isSurrogate_toNat c
  · intro hs
    induction codes with
    | nil => exact .nil
    | cons n codes ih =>
      rw [List.forall_mem_cons] at hlt hs
      rw [List.flatMap_cons]
      have hn : ¬(0xD7FF < n ∧ n < 0xE000) := of_decide_eq_false hs.1
      obtain ⟨c, rfl⟩ := Utf8.exists_char (n := n) (by rw [Nat.isValidChar]; omega)
      rw [Utf8.append_toNat]
      exact (ih hlt.2 hs.2).cons c

/-! ## Parsers -/

/-- What is read between two states of a parser has the property `Q` if and only if surrogates
are paired there. -/
structure Keeps (p : Parser) (Q : Prop) (q : Parser) : Prop where
  valid : Utf8.Valid p.data → Utf8.Valid q.data
  paired : Utf8.Valid p.data →
    (surrogatesPaired false p.data = true ↔ Q ∧ surrogatesPaired false q.data = true)

variable {p q r : Parser} {Q R : Prop}

theorem Keeps.trans (h : Keeps p Q q) (h' : Keeps q R r) : Keeps p (Q ∧ R) r where
  valid hv := h'.valid (h.valid hv)
  paired hv := by rw [h.paired hv, h'.paired (h.valid hv), and_assoc]

theorem Keeps.congr (h : Keeps p Q q) (hi : Q ↔ R) : Keeps p R q where
  valid := h.valid
  paired hv := by rw [h.paired hv, hi]

/-- Bytes outside of strings. -/
def Skips (p q : Parser) : Prop := ∃ w, p.data = w ++ q.data ∧ ∀ c ∈ w, c.toNat < 0x80 ∧ c ≠ quote

theorem Skips.keeps (h : Skips p q) : Keeps p True q := by
  obtain ⟨w, hw, hc⟩ := h
  have hskip : ∀ w : List UInt8, (∀ c ∈ w, c.toNat < 0x80 ∧ c ≠ quote) →
      (Utf8.Valid (w ++ q.data) → Utf8.Valid q.data) ∧
        surrogatesPaired false (w ++ q.data) = surrogatesPaired false q.data := by
    intro w hc
    induction w with
    | nil => exact ⟨id, rfl⟩
    | cons c w ih =>
      rw [List.forall_mem_cons] at hc
      obtain ⟨hv, hp⟩ := ih hc.2
      refine ⟨fun h ↦ hv (h.tail hc.1.1), ?_⟩
      rw [List.cons_append, surrogatesPaired, decide_eq_false hc.1.2, hp]
  obtain ⟨hv, hp⟩ := hskip w hc
  rw [← hw] at hv hp
  exact ⟨hv, fun _ ↦ by rw [hp, true_and]⟩

theorem Keeps.skips (h : Keeps p Q q) (hs : Skips q r) : Keeps p Q r :=
  (h.trans hs.keeps).congr (and_iff_left trivial)

theorem Skips.then (hs : Skips p q) (h : Keeps q Q r) : Keeps p Q r :=
  (hs.keeps.trans h).congr (and_iff_right trivial)

theorem Skips.refl (p : Parser) : Skips p p := ⟨[], rfl, List.forall_mem_nil _⟩

theorem Skips.trans (h : Skips p q) (h' : Skips q r) : Skips p r := by
  obtain ⟨w, hw, hc⟩ := h
  obtain ⟨w', hw', hc'⟩ := h'
  refine ⟨w ++ w', by rw [hw, hw', List.append_assoc], ?_⟩
  intro c hm
  exact (List.mem_append.1 hm).elim (hc c) (hc' c)

theorem Skips.trySkip {c : UInt8} (h : p.trySkip c = some q) (hc : c.toNat < 0x80 ∧ c ≠ quote) :
    Skips p q := by
  rw [Parser.trySkip] at h
  split_ifs at h with hh
  cases h
  cases hp : p.data with
  | nil => simp [hp] at hh
  | cons b s =>
    rw [hp, List.head?_cons, Option.some.injEq] at hh
    exact ⟨[c], by rw [hp, hh]; rfl, by simpa using hc⟩

theorem Skips.skip {c : UInt8} (p : Parser) (hc : c.toNat < 0x80 ∧ c ≠ quote) :
    Skips p (p.skip c) := by
  rw [Parser.skip]
  split_ifs with hs hh
  · exact .refl p
  · exact .trySkip (if_pos hh) hc
  · exact ⟨[], rfl, List.forall_mem_nil _⟩

theorem Skips.dropWhile {f : UInt8 → Bool} (hf : ∀ c, f c = true → c.toNat < 0x80 ∧ c ≠ quote)
    (p : Parser) : Skips p { p with data := p.data.dropWhile f } :=
  ⟨p.data.takeWhile f, List.takeWhile_append_dropWhile.symm,
    fun c hc ↦ hf c (List.mem_takeWhile_imp hc)⟩

theorem Skips.skipWhitespaces (p : Parser) : Skips p p.skipWhitespaces := by
  refine .dropWhile (fun c hc ↦ ?_) p
  rcases of_decide_eq_true hc with rfl | rfl | rfl | rfl <;> decide

theorem Skips.trySkipSlice {pre : List UInt8} (h : p.trySkipSlice pre = some q)
    (hc : ∀ c ∈ pre, c.toNat < 0x80 ∧ c ≠ quote) : Skips p q := by
  rw [Parser.trySkipSlice] at h
  split_ifs at h with hh
  cases h
  refine ⟨pre, ?_, hc⟩
  exact (List.prefix_iff_eq_append.1 (List.isPrefixOf_iff_prefix.1 hh)).symm

theorem isNumberChar_ascii (c : UInt8) (hc : isNumberChar c = true) :
    c.toNat < 0x80 ∧ c ≠ quote := by
  rcases of_decide_eq_true hc with rfl | ⟨h₀, h₉⟩ | rfl | rfl | rfl | rfl
  · decide
  · have h₀ : 48 ≤ c.toNat := h₀
    have h₉ : c.toNat ≤ 57 := h₉
    refine ⟨by omega, ?_⟩
    rintro rfl
    exact absurd h₀ (by decide)
  all_goals decide

/-- A string is valid if and only if its surrogates are paired. -/
theorem jsonStringDecode_keeps {text : List UInt8} (h : jsonStringDecode p = .ok (text, q)) :
    Keeps p (Utf8.Valid text) q := by
  unfold jsonStringDecode at h
  cases hp : p.trySkip quote with
  | none => simp [hp] at h
  | some p' =>
    rw [Parser.trySkip] at hp
    split_ifs at hp with hh
    cases hp
    cases hd : p.data with
    | nil => simp [hd] at hh
    | cons b s =>
      rw [hd, List.head?_cons, Option.some.injEq] at hh
      subst hh
      have hdec (hv : Utf8.Valid (quote :: s)) : ∃ d rest, d = text ∧ rest = q.data ∧
          Decoded s [] d rest := by
        cases hl : jsonStringDecodeLoop s [] with
        | error e => simp [Parser.trySkip, hd, hl] at h
        | ok r =>
          obtain ⟨d, rest⟩ := r
          simp only [Parser.trySkip, hd, hl, List.head?_cons, if_true, List.tail_cons,
            Except.ok.injEq, Prod.mk.injEq] at h
          obtain ⟨rfl, rfl⟩ := h
          exact ⟨_, _, rfl, rfl, jsonStringDecodeLoop_decoded (hv.tail (by decide)) hl⟩
      constructor
      · intro hv
        rw [hd] at hv
        obtain ⟨d, rest, -, rfl, hdec⟩ := hdec hv
        exact hdec.valid
      · intro hv
        rw [hd] at hv
        obtain ⟨d, rest, rfl, rfl, -, codes, rfl, hlt, hp⟩ := hdec hv
        rw [hd, surrogatesPaired, decide_eq_true rfl, hp, List.nil_append, valid_codes_iff hlt]

/-- What is asked of the parser of an element. -/
def KeepsStrings (elem : Parser → Except Failure (JsonValue × Parser)) : Prop :=
  ∀ {p v q}, elem p = .ok (v, q) → Keeps p (StringsValid v) q

variable {elem : Parser → Except Failure (JsonValue × Parser)}

theorem ascii_of_mem {cs : List Char} (h : ∀ c ∈ cs, c.toNat < 0x80 ∧ c.toNat ≠ 0x22) :
    ∀ c ∈ cs.map chr, c.toNat < 0x80 ∧ c ≠ quote := by
  intro c hc
  obtain ⟨a, ha, rfl⟩ := List.mem_map.1 hc
  obtain ⟨hlt, hne⟩ := h a ha
  have hn : (chr a).toNat = a.toNat := Utf8.toNat_ofNat_of_lt (hlt.trans (by decide))
  refine ⟨hn.trans_lt hlt, ?_⟩
  intro hq
  rw [hq] at hn
  exact hne hn.symm

theorem punctuation : ∀ c ∈ ['[', ']', '{', '}', ',', ':'].map chr, c.toNat < 0x80 ∧ c ≠ quote :=
  ascii_of_mem (by simp)

/-- What follows a value up to and with a punctuation mark. -/
theorem Skips.mark {c : UInt8} (h : p.skipWhitespaces.trySkip c = some q)
    (hc : c ∈ ['[', ']', '{', '}', ',', ':'].map chr) : Skips p q :=
  (Skips.skipWhitespaces p).trans (.trySkip h (punctuation c hc))

theorem KeepsStrings.jsonArrayDecode (he : KeepsStrings elem) {n : ℕ} {res : List JsonValue}
    {v : JsonValue} (h : jsonArrayDecode elem n p res = .ok (v, q)) :
    ∃ values, v = .array (res ++ values) ∧ Keeps p (∀ u ∈ values, StringsValid u) q := by
  fun_induction Json.jsonArrayDecode elem n p res with
  | case4 n p res hp u q' hv res' q'' r hc =>
    cases h
    exact ⟨[u], rfl, ((he hv).skips (.mark hc (by decide))).congr (by simp)⟩
  | case5 n p res hp u q' hv res' q'' hb r hc ih =>
    obtain ⟨values, rfl, hk⟩ := ih h
    refine ⟨u :: values, by simp [res'], ?_⟩
    have hcomma := (Skips.mark hc (by decide)).trans (.skipWhitespaces r)
    exact ((he hv).trans (hcomma.then hk)).congr (by simp)
  | _ => simp at h

theorem KeepsStrings.jsonObjectDecode (he : KeepsStrings elem) {n : ℕ}
    {fields : List (List UInt8 × JsonValue)} {v : JsonValue}
    (h : jsonObjectDecode elem n p fields = .ok (v, q)) :
    ∃ fieldValues, v = .object (fields ++ fieldValues) ∧
      Keeps p (∀ f ∈ fieldValues, Utf8.Valid f.1 ∧ StringsValid f.2) q := by
  fun_induction Json.jsonObjectDecode elem n p fields with
  | case6 n p fields hp f p' hf q' hq u r hv fields' r' s hs =>
    cases h
    have hfield := (jsonStringDecode_keeps hf).skips (.mark hq (by decide))
    exact ⟨[(f, u)], rfl, ((hfield.trans (he hv)).skips (.mark hs (by decide))).congr (by simp)⟩
  | case7 n p fields hp f p' hf q' hq u r hv fields' r' hb s hs ih =>
    obtain ⟨fieldValues, rfl, hk⟩ := ih h
    refine ⟨(f, u) :: fieldValues, by simp [fields'], ?_⟩
    have hfield := (jsonStringDecode_keeps hf).skips (.mark hq (by decide))
    have hcomma := (Skips.mark hs (by decide)).trans (.skipWhitespaces s)
    exact ((hfield.trans (he hv)).trans (hcomma.then hk)).congr (by simp)
  | _ => simp at h

theorem stringsValid_array {values : List JsonValue} :
    StringsValid (.array values) ↔ ∀ v ∈ values, StringsValid v := by
  constructor
  · intro h
    cases h with
    | array h => exact h
  · exact .array

theorem stringsValid_object {fieldValues : List (List UInt8 × JsonValue)} :
    StringsValid (.object fieldValues) ↔ ∀ f ∈ fieldValues, Utf8.Valid f.1 ∧ StringsValid f.2 := by
  constructor
  · intro h
    cases h with
    | object hf hv => exact fun f hm ↦ ⟨hf f hm, hv f hm⟩
  · exact fun h ↦ .object (fun f hm ↦ (h f hm).1) fun f hm ↦ (h f hm).2

/-- One more level keeps the strings. -/
theorem KeepsStrings.value (he : KeepsStrings elem) : KeepsStrings (jsonValueDecode elem) := by
  intro p v q h
  simp only [jsonValueDecode] at h
  split_ifs at h
  all_goals try split at h
  all_goals try simp only [Except.ok.injEq, Prod.mk.injEq, reduceCtorEq] at h
  iterate 3
    · obtain ⟨rfl, rfl⟩ := h
      exact (Skips.trySkipSlice ‹_› (ascii_of_mem (by simp))).keeps.congr
        (iff_of_true trivial (by constructor))
  · obtain ⟨rfl, rfl⟩ := h
    refine (jsonStringDecode_keeps ‹_›).congr ⟨.string, fun hs ↦ ?_⟩
    cases hs with
    | string hs => exact hs
  · obtain ⟨rfl, rfl⟩ := h
    have hopen := Skips.skip p (punctuation (chr '[') (by decide))
    exact ((hopen.trans (.skipWhitespaces _)).trans
      (.trySkip ‹_› (punctuation _ (by decide)))).keeps.congr
        (iff_of_true trivial (.array (List.forall_mem_nil _)))
  · obtain ⟨values, rfl, hk⟩ := he.jsonArrayDecode h
    have hopen := Skips.skip p (punctuation (chr '[') (by decide))
    exact ((hopen.trans (.skipWhitespaces _)).then hk).congr stringsValid_array.symm
  · obtain ⟨rfl, rfl⟩ := h
    have hopen := Skips.skip p (punctuation (chr '{') (by decide))
    exact ((hopen.trans (.skipWhitespaces _)).trans
      (.trySkip ‹_› (punctuation _ (by decide)))).keeps.congr
        (iff_of_true trivial (.object (List.forall_mem_nil _) (List.forall_mem_nil _)))
  · obtain ⟨fieldValues, rfl, hk⟩ := he.jsonObjectDecode h
    have hopen := Skips.skip p (punctuation (chr '{') (by decide))
    exact ((hopen.trans (.skipWhitespaces _)).then hk).congr stringsValid_object.symm
  · obtain ⟨rfl, rfl⟩ := h
    exact (Skips.dropWhile isNumberChar_ascii p).keeps.congr (iff_of_true trivial (.number _))

theorem keepsStrings_jsonDecodeLevels : ∀ n, KeepsStrings (jsonDecodeLevels n)
  | 0 => fun h ↦ by cases h
  | n + 1 => fun h ↦
    (Skips.skipWhitespaces _).then (KeepsStrings.value (keepsStrings_jsonDecodeLevels n) h)

/-! ## Storing -/

theorem valid_of_jsonString {s sb t : List UInt8} (h : jsonString s sb = some t) :
    Utf8.Valid s := by
  obtain ⟨t', ht, -⟩ := Option.map_eq_some_iff.1 h
  exact valid_of_jsonStringLoop ht

theorem writeValue_some {f : List UInt8 → Option (List UInt8)} {jb jb' : JsonBuilder}
    (h : writeValue f jb = some jb') : ∃ t, f jb.sb = some t := by
  obtain ⟨t, ht, -⟩ := Option.bind_eq_some_iff.1 h
  exact ⟨t, ht⟩

mutual

/-- A value that is stored has valid strings. -/
theorem stringsValid_of_store : ∀ (v : JsonValue) {jb jb' : JsonBuilder},
    v.store jb = some jb' → StringsValid v
  | .null, _, _, _ => .null
  | .boolean b, _, _, _ => .boolean b
  | .number text, _, _, _ => .number text
  | .string text, jb, jb', h => by
    obtain ⟨t, ht⟩ := writeValue_some h
    exact .string (valid_of_jsonString ht)
  | .array values, jb, jb', h => by
    rw [JsonValue.store] at h
    obtain ⟨jb₁, h₁, -⟩ := Option.bind_eq_some_iff.1 h
    exact .array (stringsValid_of_storeValues values h₁)
  | .object fieldValues, jb, jb', h => by
    rw [JsonValue.store] at h
    obtain ⟨jb₁, h₁, -⟩ := Option.bind_eq_some_iff.1 h
    have hf := stringsValid_of_storeFields fieldValues h₁
    exact .object (fun f hm ↦ (hf f hm).1) fun f hm ↦ (hf f hm).2

theorem stringsValid_of_storeValues : ∀ (values : List JsonValue) {arr : JsonScope} {first : Bool}
    {jb jb' : JsonBuilder}, storeValues arr first values jb = some jb' →
    ∀ v ∈ values, StringsValid v
  | [], _, _, _, _, _ => List.forall_mem_nil _
  | v :: values, arr, first, jb, jb', h => by
    rw [storeValues] at h
    obtain ⟨jb₁, -, h⟩ := Option.bind_eq_some_iff.1 h
    obtain ⟨jb₂, hv, h⟩ := Option.bind_eq_some_iff.1 h
    exact List.forall_mem_cons.2 ⟨stringsValid_of_store v hv, stringsValid_of_storeValues values h⟩

theorem stringsValid_of_storeFields : ∀ (fieldValues : List (List UInt8 × JsonValue))
    {object : JsonScope} {first : Bool} {jb jb' : JsonBuilder},
    storeFields object first fieldValues jb = some jb' →
    ∀ f ∈ fieldValues, Utf8.Valid f.1 ∧ StringsValid f.2
  | [], _, _, _, _, _ => List.forall_mem_nil _
  | (field, v) :: fieldValues, object, first, jb, jb', h => by
    rw [storeFields] at h
    obtain ⟨jb₁, -, h⟩ := Option.bind_eq_some_iff.1 h
    obtain ⟨jb₂, hf, h⟩ := Option.bind_eq_some_iff.1 h
    obtain ⟨jb₃, hv, h⟩ := Option.bind_eq_some_iff.1 h
    obtain ⟨t, ht⟩ := writeValue_some hf
    exact List.forall_mem_cons.2 ⟨⟨valid_of_jsonString ht, stringsValid_of_store v hv⟩,
      stringsValid_of_storeFields fieldValues h⟩

end

/-- A value can be stored if and only if its strings are valid. -/
theorem store_isSome_iff (v : JsonValue) (jb : JsonBuilder) :
    (v.store jb).isSome ↔ StringsValid v := by
  constructor
  · intro h
    obtain ⟨jb', hs⟩ := Option.isSome_iff_exists.1 h
    exact stringsValid_of_store v hs
  · intro h
    rw [store_eq h]
    rfl

/-! ## Decoded values -/

/-- A value decoded from valid text has valid strings, and can be stored, if and only if in the text
surrogates are paired. -/
theorem jsonDecode_strings {text : List UInt8} {v : JsonValue} (ht : Utf8.Valid text)
    (hd : jsonDecode text = .ok v) :
    (StringsValid v ∧ ∀ jb, (v.store jb).isSome) ↔ surrogatesPaired false text = true := by
  have hstore : (StringsValid v ∧ ∀ jb, (v.store jb).isSome) ↔ StringsValid v :=
    and_iff_left_of_imp fun h jb ↦ (store_isSome_iff v jb).2 h
  rw [hstore]
  cases hv : doJsonDecode { data := text } defaultMaxDepth with
  | error e => simp [jsonDecode, hv] at hd
  | ok r =>
    obtain ⟨v', p⟩ := r
    simp only [jsonDecode, hv] at hd
    split_ifs at hd with he
    cases hd
    have hk := (keepsStrings_jsonDecodeLevels _ hv).skips (.skipWhitespaces p)
    rw [Parser.empty, List.isEmpty_iff] at he
    have := hk.paired ht
    rw [he, surrogatesPaired, eq_self, and_true] at this
    exact this.symm

/-- The text `"\u.."` with these digits. -/
def escapeText (digits : List Char) : List UInt8 :=
  quote :: backslash :: chr 'u' :: (digits.map chr ++ [quote])

theorem jsonDecode_strings_letter : Utf8.Valid (escapeText ['0', '0', '4', '1']) ∧
    jsonDecode (escapeText ['0', '0', '4', '1']) = .ok (.string [0x41]) ∧
    StringsValid (.string [0x41]) := by
  have hv : Utf8.Valid (escapeText ['0', '0', '4', '1']) :=
    ⟨['"', '\\', 'u', '0', '0', '4', '1', '"'], by decide⟩
  exact ⟨hv, rfl, ((jsonDecode_strings hv rfl).2 (by decide)).1⟩

/-- A surrogate that stands alone is decoded to what cannot be stored. -/
theorem lone_surrogate_decoded : ¬∀ text v, Utf8.Valid text → jsonDecode text = .ok v →
    StringsValid v ∧ ∀ jb, (v.store jb).isSome := by
  intro h
  have hv : Utf8.Valid (escapeText ['d', '8', '0', '0']) :=
    ⟨['"', '\\', 'u', 'd', '8', '0', '0', '"'], by decide⟩
  have hs : StringsValid (.string ([0xd800].flatMap Utf8.appendUtf8CharacterUnsafe)) :=
    (h _ _ hv rfl).1
  cases hs with
  | string hs =>
    have := (valid_codes_iff (by simp)).1 hs 0xd800 List.mem_cons_self
    exact absurd this (by decide)

end PxcCore.Json
