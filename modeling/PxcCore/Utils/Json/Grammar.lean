import PxcCore.Utils.Json.DecodedStrings

/-!
# The grammar of `json_decode`

Which texts `json_decode` takes, and for which values, said without a parser: `ValueText t v` holds
when `t` is a text of `v`.  The grammar is wider than JSON where the source is: a number is any run
of the bytes of numbers that starts with a digit, a sign or a point, `\` may stand before any byte,
and a surrogate needs no partner.  `jsonDecode_iff` shows that the parser reads exactly this
language, up to the depth it is given.
-/

namespace PxcCore.Json

/-! ## Strings -/

/-- No escape of a surrogate stands at the beginning of `s`. -/
def Unpaired (s : List UInt8) : Prop :=
  ∀ l0 l1 l2 l3 rest, s = backslash :: chr 'u' :: l0 :: l1 :: l2 :: l3 :: rest →
    (hexNum l0 l1 l2 l3).any isSurrogate = false

/-- `StringChars s d`: between two quotes, `s` stands for the bytes `d`. -/
inductive StringChars : List UInt8 → List UInt8 → Prop where
  | nil : StringChars [] []
  | plain {c : UInt8} {s d : List UInt8} (hq : c ≠ quote) (hb : c ≠ backslash)
    (h : StringChars s d) : StringChars (c :: s) (c :: d)
  | escape {e : UInt8} {s d : List UInt8} (he : e ≠ chr 'u') (h : StringChars s d) :
    StringChars (backslash :: e :: s) (unescape e :: d)
  | unicode {h0 h1 h2 h3 : UInt8} {n : ℕ} {s d : List UInt8} (hn : hexNum h0 h1 h2 h3 = some n)
    (hs : isSurrogate n = false) (h : StringChars s d) :
    StringChars (backslash :: chr 'u' :: h0 :: h1 :: h2 :: h3 :: s)
      (Utf8.appendUtf8CharacterUnsafe n ++ d)
  | pair {h0 h1 h2 h3 l0 l1 l2 l3 : UInt8} {n m : ℕ} {s d : List UInt8}
    (hn : hexNum h0 h1 h2 h3 = some n) (hs : isSurrogate n = true)
    (hm : hexNum l0 l1 l2 l3 = some m) (ht : isSurrogate m = true) (h : StringChars s d) :
    StringChars (backslash :: chr 'u' :: h0 :: h1 :: h2 :: h3 ::
        backslash :: chr 'u' :: l0 :: l1 :: l2 :: l3 :: s)
      (Utf8.appendUtf8CharacterUnsafe ((((n &&& 0x3FF) <<< 10) ||| (m &&& 0x3FF)) + 0x10000) ++ d)
  | lone {h0 h1 h2 h3 : UInt8} {n : ℕ} {s d : List UInt8} (hn : hexNum h0 h1 h2 h3 = some n)
    (hs : isSurrogate n = true) (hu : Unpaired s) (h : StringChars s d) :
    StringChars (backslash :: chr 'u' :: h0 :: h1 :: h2 :: h3 :: s)
      (Utf8.appendUtf8CharacterUnsafe n ++ d)

section Strings

variable {src s dest d rest : List UInt8} {h0 h1 h2 h3 l0 l1 l2 l3 : UInt8} {n m : ℕ}

theorem isSurrogate_iff : isSurrogate n = true ↔ 0xD7FF < n ∧ n < 0xE000 := by
  simp [isSurrogate]

theorem isSurrogate_eq_false_iff : isSurrogate n = false ↔ ¬(0xD7FF < n ∧ n < 0xE000) := by
  rw [← isSurrogate_iff, Bool.not_eq_true]

/-- A surrogate stands for itself if the next escape can be read and is none. -/
theorem decodeLoop_lone (hn : hexNum h0 h1 h2 h3 = some n) (hs : isSurrogate n = true)
    (hno : ∀ l0 l1 l2 l3 rest, src = backslash :: chr 'u' :: l0 :: l1 :: l2 :: l3 :: rest →
      ∃ m, hexNum l0 l1 l2 l3 = some m ∧ isSurrogate m = false) (dest : List UInt8) :
    jsonStringDecodeLoop (backslash :: chr 'u' :: h0 :: h1 :: h2 :: h3 :: src) dest =
      jsonStringDecodeLoop src (dest ++ Utf8.appendUtf8CharacterUnsafe n) := by
  rw [jsonStringDecodeLoop.eq_def]
  simp +decide only [if_true, if_false, hn, if_pos (isSurrogate_iff.1 hs)]
  split
  · split_ifs with hbu
    · obtain ⟨rfl, rfl⟩ := hbu
      obtain ⟨m, hm, ht⟩ := hno _ _ _ _ _ rfl
      simp only [hm, if_neg (isSurrogate_eq_false_iff.1 ht)]
    · rfl
  · rfl

/-- An escape that the decoder sees behind `s` and a quote is an escape of `s`. -/
theorem StringChars.escape_inside (h : StringChars s d) {tail : List UInt8}
    (he : s ++ quote :: rest = backslash :: chr 'u' :: l0 :: l1 :: l2 :: l3 :: tail) :
    ∃ m s', hexNum l0 l1 l2 l3 = some m ∧
      s = backslash :: chr 'u' :: l0 :: l1 :: l2 :: l3 :: s' := by
  cases h with
  | nil => exact absurd (List.cons.inj he).1 (by decide)
  | plain hq hb h => exact absurd (List.cons.inj he).1 hb
  | escape hu h => exact absurd (List.cons.inj (List.cons.inj he).2).1 hu
  | unicode hn hs h =>
    simp only [List.cons_append, List.cons.injEq, true_and] at he
    obtain ⟨rfl, rfl, rfl, rfl, -⟩ := he
    exact ⟨_, _, hn, rfl⟩
  | pair hn hs hm ht h =>
    simp only [List.cons_append, List.cons.injEq, true_and] at he
    obtain ⟨rfl, rfl, rfl, rfl, -⟩ := he
    exact ⟨_, _, hn, rfl⟩
  | lone hn hs hu h =>
    simp only [List.cons_append, List.cons.injEq, true_and] at he
    obtain ⟨rfl, rfl, rfl, rfl, -⟩ := he
    exact ⟨_, _, hn, rfl⟩

/-- The decoder reads every string of the grammar. -/
theorem StringChars.decode (h : StringChars s d) (rest dest : List UInt8) :
    jsonStringDecodeLoop (s ++ quote :: rest) dest = .ok (dest ++ d, rest) := by
  induction h generalizing dest with
  | nil =>
    rw [List.nil_append, jsonStringDecodeLoop.eq_def]
    simp only [if_true, List.append_nil]
  | plain hq hb h ih =>
    rw [List.cons_append, decodeLoop_plain hq hb, ih, List.append_assoc, List.singleton_append]
  | escape he h ih =>
    rw [List.cons_append, List.cons_append, decodeLoop_unescape he, ih, List.append_assoc,
      List.singleton_append]
  | unicode hn hs h ih =>
    simp only [List.cons_append]
    rw [decodeLoop_scalar hn (isSurrogate_eq_false_iff.1 hs), ih, List.append_assoc]
  | pair hn hs hm ht h ih =>
    simp only [List.cons_append]
    rw [decodeLoop_pair hn (isSurrogate_iff.1 hs) hm (isSurrogate_iff.1 ht), ih, List.append_assoc]
  | lone hn hs hu h ih =>
    simp only [List.cons_append]
    rw [decodeLoop_lone hn hs, ih, List.append_assoc]
    intro l0 l1 l2 l3 tail he
    obtain ⟨m, s', hm, hs'⟩ := h.escape_inside he
    have ht := hu l0 l1 l2 l3 s' hs'
    rw [hm] at ht
    exact ⟨m, hm, ht⟩

/-- Something in front of what the decoder goes on with. -/
theorem extend_stringChars (pre x : List UInt8) {d' : List UInt8}
    (hc : ∀ {s d : List UInt8}, src = s ++ quote :: rest → StringChars s d →
      StringChars (pre ++ s) (x ++ d))
    (h : ∃ s d, src = s ++ quote :: rest ∧ StringChars s d ∧ d' = dest ++ x ++ d) :
    ∃ s d, pre ++ src = s ++ quote :: rest ∧ StringChars s d ∧ d' = dest ++ d := by
  obtain ⟨s, d, hsrc, hchars, rfl⟩ := h
  exact ⟨pre ++ s, x ++ d, by rw [hsrc, List.append_assoc], hc hsrc hchars, List.append_assoc ..⟩

/-- What the decoder reads is a string of the grammar and the closing quote. -/
theorem stringChars_of_decodeLoop {d' : List UInt8}
    (h : jsonStringDecodeLoop src dest = .ok (d', rest)) :
    ∃ s d, src = s ++ quote :: rest ∧ StringChars s d ∧ d' = dest ++ d := by
  induction hn : src.length using Nat.strong_induction_on generalizing src dest with
  | h n ih =>
    subst hn
    cases src with
    | nil => cases h
    | cons c src =>
      by_cases hq : c = quote
      · subst hq
        rw [jsonStringDecodeLoop.eq_def] at h
        simp only [if_true, Except.ok.injEq, Prod.mk.injEq] at h
        obtain ⟨rfl, rfl⟩ := h
        exact ⟨[], [], rfl, .nil, (List.append_nil _).symm⟩
      by_cases hb : c = backslash
      swap
      · rw [decodeLoop_plain hq hb] at h
        exact extend_stringChars [c] [c] (fun _ hs ↦ .plain hq hb hs)
          (ih _ (Nat.lt_succ_self _) h rfl)
      subst hb
      cases src with
      | nil => cases h
      | cons e src =>
        by_cases he : e = chr 'u'
        swap
        · rw [decodeLoop_unescape he] at h
          exact extend_stringChars [backslash, e] [unescape e] (fun _ hs ↦ .escape he hs)
            (ih _ (by simp only [List.length_cons]; omega) h rfl)
        subst he
        obtain ⟨h0, h1, h2, h3, n, src, rfl, hn, hcase⟩ := of_decodeLoop_unicode h
        rcases hcase with ⟨hs, hl⟩ | ⟨hs, hno, hl⟩ | ⟨hs, l0, l1, l2, l3, m, src, rfl, hm, ht, hl⟩
        · exact extend_stringChars [backslash, chr 'u', h0, h1, h2, h3] _
            (fun _ hs' ↦ .unicode hn hs hs')
            (ih _ (by simp only [List.length_cons]; omega) hl rfl)
        · refine extend_stringChars [backslash, chr 'u', h0, h1, h2, h3] _ (fun hsrc hs' ↦ ?_)
            (ih _ (by simp only [List.length_cons]; omega) hl rfl)
          refine .lone hn hs ?_ hs'
          -- an escape of `s` is an escape of the text that the decoder has looked at
          rintro l0 l1 l2 l3 tail rfl
          exact hno l0 l1 l2 l3 _ hsrc
        · exact extend_stringChars [backslash, chr 'u', h0, h1, h2, h3,
              backslash, chr 'u', l0, l1, l2, l3] _ (fun _ hs' ↦ .pair hn hs hm ht hs')
            (ih _ (by simp only [List.length_cons]; omega) hl rfl)

end Strings

/-! ## Values -/

/-- Nothing but whitespace. -/
def Blank (w : List UInt8) : Prop := ∀ c ∈ w, Parser.isWhitespace c = true

/-- A value of an array, with the whitespace around its text. -/
structure Element where
  before : List UInt8
  text : List UInt8
  after : List UInt8
  value : JsonValue

/-- A field of an object: its name as it is written and as it is read, with the whitespace in front
of it and behind it, and its value. -/
structure Field where
  before : List UInt8
  raw : List UInt8
  name : List UInt8
  after : List UInt8
  element : Element

/-- The element as it stands in the text. -/
def Element.bytes (e : Element) : List UInt8 := e.before ++ (e.text ++ e.after)

/-- The field as it stands in the text. -/
def Field.bytes (f : Field) : List UInt8 :=
  f.before ++ quote :: (f.raw ++ quote :: (f.after ++ chr ':' :: f.element.bytes))

/-- The name and the value of the field. -/
def Field.value (f : Field) : List UInt8 × JsonValue := (f.name, f.element.value)

/-- There is only whitespace around the value. -/
structure Element.Spaced (e : Element) : Prop where
  before : Blank e.before
  after : Blank e.after

/-- The name is a string, and there is only whitespace around it and around the value. -/
structure Field.Spaced (f : Field) : Prop where
  before : Blank f.before
  name : StringChars f.raw f.name
  after : Blank f.after
  element : f.element.Spaced

/-- Texts with commas between them. -/
def separated (first : List UInt8) (others : List (List UInt8)) : List UInt8 :=
  first ++ others.flatMap (chr ',' :: ·)

/-- `ValueText t v`: the bytes `t`, without whitespace around them, are a text of `v`. -/
inductive ValueText : List UInt8 → JsonValue → Prop where
  | null : ValueText (['n', 'u', 'l', 'l'].map chr) .null
  | boolFalse : ValueText (['f', 'a', 'l', 's', 'e'].map chr) (.boolean false)
  | boolTrue : ValueText (['t', 'r', 'u', 'e'].map chr) (.boolean true)
  | number {c : UInt8} {t : List UInt8} (hc : isNumberStart c = true)
    (ht : ∀ d ∈ t, isNumberChar d = true) : ValueText (c :: t) (.number (c :: t))
  | string {s d : List UInt8} (h : StringChars s d) :
    ValueText (quote :: (s ++ [quote])) (.string d)
  | emptyArray {w : List UInt8} (hw : Blank w) :
    ValueText (chr '[' :: (w ++ [chr ']'])) (.array [])
  | array {e : Element} {es : List Element} (hs : ∀ x ∈ e :: es, x.Spaced)
    (h : ∀ x ∈ e :: es, ValueText x.text x.value) :
    ValueText (chr '[' :: (separated e.bytes (es.map Element.bytes) ++ [chr ']']))
      (.array ((e :: es).map Element.value))
  | emptyObject {w : List UInt8} (hw : Blank w) :
    ValueText (chr '{' :: (w ++ [chr '}'])) (.object [])
  | object {f : Field} {fs : List Field} (hs : ∀ x ∈ f :: fs, x.Spaced)
    (h : ∀ x ∈ f :: fs, ValueText x.element.text x.element.value) :
    ValueText (chr '{' :: (separated f.bytes (fs.map Field.bytes) ++ [chr '}']))
      (.object ((f :: fs).map Field.value))

theorem skipWhitespaces_empty_iff {w : List UInt8} :
    (Parser.mk w none).skipWhitespaces.empty = true ↔ Blank w := by
  simp [Parser.skipWhitespaces, Parser.empty, List.dropWhile_eq_nil_iff, Blank]

/-- A number ends where no byte of a number follows. -/
def Ends (v : JsonValue) (rest : List UInt8) : Prop := ∀ t, v = .number t → Delimited rest

/-! ## What the parser reads is in the grammar -/

section Reading

variable {elem : Parser → Except Failure (JsonValue × Parser)} {n : ℕ} {s : List UInt8}
  {v : JsonValue} {q : Parser}

theorem of_trySkip {c : UInt8} (h : (Parser.mk s none).trySkip c = some q) :
    ∃ rest, q = ⟨rest, none⟩ ∧ s = c :: rest := by
  unfold Parser.trySkip at h
  split_ifs at h with hc
  cases h
  exact ⟨s.tail, rfl, (List.cons_head?_tail hc).symm⟩

theorem of_trySkipSlice {pre : List UInt8} (h : (Parser.mk s none).trySkipSlice pre = some q) :
    ∃ rest, q = ⟨rest, none⟩ ∧ s = pre ++ rest := by
  unfold Parser.trySkipSlice at h
  split_ifs at h with hp
  cases h
  obtain ⟨rest, rfl⟩ := List.isPrefixOf_iff_prefix.mp hp
  exact ⟨rest, by simp, rfl⟩

theorem of_skipWhitespaces (s : List UInt8) :
    ∃ w rest, (Parser.mk s none).skipWhitespaces = ⟨rest, none⟩ ∧ Blank w ∧ s = w ++ rest :=
  ⟨s.takeWhile Parser.isWhitespace, s.dropWhile Parser.isWhitespace, rfl,
    fun _ hc ↦ List.mem_takeWhile_imp hc, (List.takeWhile_append_dropWhile ..).symm⟩

/-- A mark behind whitespace. -/
theorem of_mark {c : UInt8} (h : (Parser.mk s none).skipWhitespaces.trySkip c = some q) :
    ∃ w rest, q = ⟨rest, none⟩ ∧ Blank w ∧ s = w ++ c :: rest := by
  obtain ⟨w, rest, hskip, hw, rfl⟩ := of_skipWhitespaces s
  rw [hskip] at h
  obtain ⟨rest', rfl, rfl⟩ := of_trySkip h
  exact ⟨w, rest', rfl, hw, rfl⟩

theorem of_jsonStringDecode {d : List UInt8} (h : jsonStringDecode ⟨s, none⟩ = .ok (d, q)) :
    ∃ r rest, q = ⟨rest, none⟩ ∧ s = quote :: (r ++ quote :: rest) ∧ StringChars r d := by
  unfold jsonStringDecode at h
  cases hq : (Parser.mk s none).trySkip quote with
  | none =>
    rw [hq] at h
    cases h
  | some p =>
    obtain ⟨src, rfl, rfl⟩ := of_trySkip hq
    rw [hq] at h
    dsimp only at h
    cases hl : jsonStringDecodeLoop src [] with
    | error e =>
      rw [hl] at h
      cases h
    | ok r =>
      obtain ⟨d', rest⟩ := r
      rw [hl] at h
      cases h
      obtain ⟨r, d', rfl, hchars, rfl⟩ := stringChars_of_decodeLoop hl
      exact ⟨r, rest, rfl, rfl, hchars⟩

/-- What is read is a text of the value behind whitespace, and is less deep than `n`. -/
def ReadsText (elem : Parser → Except Failure (JsonValue × Parser)) (n : ℕ) : Prop :=
  ∀ {s : List UInt8} {v : JsonValue} {q : Parser}, elem ⟨s, none⟩ = .ok (v, q) →
    ∃ w t rest, q = ⟨rest, none⟩ ∧ s = w ++ (t ++ rest) ∧ Blank w ∧ ValueText t v ∧
      v.depth < n ∧ Ends v rest

/-- The element behind more whitespace. -/
def Element.indent (w : List UInt8) (e : Element) : Element := { e with before := w ++ e.before }

/-- The field behind more whitespace. -/
def Field.indent (w : List UInt8) (f : Field) : Field := { f with before := w ++ f.before }

theorem Blank.nil : Blank [] := List.forall_mem_nil _

theorem Blank.append {w w' : List UInt8} (h : Blank w) (h' : Blank w') : Blank (w ++ w') :=
  fun c hc ↦ (List.mem_append.mp hc).elim (h c) (h' c)

theorem separated_cons (first x : List UInt8) (xs : List (List UInt8)) :
    separated first (x :: xs) = first ++ chr ',' :: separated x xs := by
  simp [separated]

theorem separated_indent (w first : List UInt8) (xs : List (List UInt8)) :
    separated (w ++ first) xs = w ++ separated first xs := List.append_assoc ..

theorem ReadsText.array (he : ReadsText elem n) {k : ℕ} {res : List JsonValue}
    (h : jsonArrayDecode elem k ⟨s, none⟩ res = .ok (v, q)) :
    ∃ e es rest, q = ⟨rest, none⟩ ∧
      s = separated e.bytes (es.map Element.bytes) ++ chr ']' :: rest ∧
      (∀ x ∈ e :: es, x.Spaced ∧ ValueText x.text x.value ∧ x.value.depth < n) ∧
      v = .array (res ++ (e :: es).map Element.value) := by
  induction k generalizing s res with
  | zero => cases h
  | succ k ih =>
    rw [jsonArrayDecode] at h
    split_ifs at h
    cases hv : elem ⟨s, none⟩ with
    | error e =>
      rw [hv] at h
      cases h
    | ok r =>
      obtain ⟨u, p⟩ := r
      obtain ⟨w, t, rest, rfl, rfl, hw, ht, hd, -⟩ := he hv
      rw [hv] at h
      dsimp only at h
      cases hb : (Parser.mk rest none).skipWhitespaces.trySkip (chr ']') with
      | some r =>
        obtain ⟨w', rest', rfl, hw', rfl⟩ := of_mark hb
        rw [hb] at h
        cases h
        refine ⟨⟨w, t, w', u⟩, [], rest', rfl, ?_, ?_, rfl⟩
        · simp [separated, Element.bytes]
        · rintro x hx
          obtain rfl := List.mem_singleton.mp hx
          exact ⟨⟨hw, hw'⟩, ht, hd⟩
      | none =>
        cases hc : (Parser.mk rest none).skipWhitespaces.trySkip (chr ',') with
        | none =>
          rw [hb, hc] at h
          dsimp only at h
          split_ifs at h
        | some r =>
          obtain ⟨w', rest', rfl, hw', rfl⟩ := of_mark hc
          obtain ⟨w₂, rest₂, hskip, hw₂, rfl⟩ := of_skipWhitespaces rest'
          rw [hb, hc] at h
          dsimp only at h
          rw [hskip] at h
          obtain ⟨e, es, rest₃, rfl, rfl, hall, rfl⟩ := ih h
          rw [List.forall_mem_cons] at hall
          refine ⟨⟨w, t, w', u⟩, e.indent w₂ :: es, rest₃, rfl, ?_, ?_, ?_⟩
          · simp [separated, Element.bytes, Element.indent]
          · simp only [List.forall_mem_cons]
            exact ⟨⟨⟨hw, hw'⟩, ht, hd⟩, ⟨⟨hw₂.append hall.1.1.before, hall.1.1.after⟩, hall.1.2⟩,
              hall.2⟩
          · simp [Element.indent]

theorem ReadsText.object (he : ReadsText elem n) {k : ℕ} {res : List (List UInt8 × JsonValue)}
    (h : jsonObjectDecode elem k ⟨s, none⟩ res = .ok (v, q)) :
    ∃ f fs rest, q = ⟨rest, none⟩ ∧
      s = separated f.bytes (fs.map Field.bytes) ++ chr '}' :: rest ∧
      (∀ x ∈ f :: fs, x.Spaced ∧ ValueText x.element.text x.element.value ∧
        x.element.value.depth < n) ∧
      v = .object (res ++ (f :: fs).map Field.value) := by
  induction k generalizing s res with
  | zero => cases h
  | succ k ih =>
    rw [jsonObjectDecode] at h
    split_ifs at h
    cases hf : jsonStringDecode ⟨s, none⟩ with
    | error e =>
      rw [hf] at h
      cases h
    | ok r =>
      obtain ⟨name, p⟩ := r
      obtain ⟨raw, rest, rfl, rfl, hname⟩ := of_jsonStringDecode hf
      rw [hf] at h
      dsimp only at h
      cases hm : (Parser.mk rest none).skipWhitespaces.trySkip (chr ':') with
      | none =>
        rw [hm] at h
        cases h
      | some p =>
        obtain ⟨w₁, rest₁, rfl, hw₁, rfl⟩ := of_mark hm
        rw [hm] at h
        dsimp only at h
        cases hv : elem ⟨rest₁, none⟩ with
        | error e =>
          rw [hv] at h
          cases h
        | ok r =>
          obtain ⟨u, p⟩ := r
          obtain ⟨w, t, rest, rfl, rfl, hw, ht, hd, -⟩ := he hv
          rw [hv] at h
          dsimp only at h
          cases hb : (Parser.mk rest none).skipWhitespaces.trySkip (chr '}') with
          | some r =>
            obtain ⟨w', rest', rfl, hw', rfl⟩ := of_mark hb
            rw [hb] at h
            cases h
            refine ⟨⟨[], raw, name, w₁, ⟨w, t, w', u⟩⟩, [], rest', rfl, ?_, ?_, rfl⟩
            · simp [separated, Field.bytes, Element.bytes]
            · rintro x hx
              obtain rfl := List.mem_singleton.mp hx
              exact ⟨⟨List.forall_mem_nil _, hname, hw₁, ⟨hw, hw'⟩⟩, ht, hd⟩
          | none =>
            cases hc : (Parser.mk rest none).skipWhitespaces.trySkip (chr ',') with
            | none =>
              rw [hb, hc] at h
              dsimp only at h
              split_ifs at h
            | some r =>
              obtain ⟨w', rest', rfl, hw', rfl⟩ := of_mark hc
              obtain ⟨w₂, rest₂, hskip, hw₂, rfl⟩ := of_skipWhitespaces rest'
              rw [hb, hc] at h
              dsimp only at h
              rw [hskip] at h
              obtain ⟨f, fs, rest₃, rfl, rfl, hall, rfl⟩ := ih h
              rw [List.forall_mem_cons] at hall
              refine ⟨⟨[], raw, name, w₁, ⟨w, t, w', u⟩⟩, f.indent w₂ :: fs, rest₃, rfl, ?_, ?_, ?_⟩
              · simp [separated, Field.bytes, Element.bytes, Field.indent]
              · simp only [List.forall_mem_cons]
                exact ⟨⟨⟨List.forall_mem_nil _, hname, hw₁, ⟨hw, hw'⟩⟩, ht, hd⟩,
                  ⟨{ hall.1.1 with before := hw₂.append hall.1.1.before }, hall.1.2⟩, hall.2⟩
              · simp [Field.indent, Field.value]

theorem valuesDepth_le {values : List JsonValue} (h : ∀ v ∈ values, v.depth < n) :
    valuesDepth values ≤ n := by
  induction values with
  | nil => exact Nat.zero_le n
  | cons v values ih =>
    rw [List.forall_mem_cons] at h
    exact max_le h.1 (ih h.2)

theorem fieldsDepth_le {fieldValues : List (List UInt8 × JsonValue)}
    (h : ∀ f ∈ fieldValues, f.2.depth < n) : fieldsDepth fieldValues ≤ n := by
  induction fieldValues with
  | nil => exact Nat.zero_le n
  | cons f fieldValues ih =>
    rw [List.forall_mem_cons] at h
    exact max_le h.1 (ih h.2)

theorem of_peekChar {c : UInt8} (h : (Parser.mk s none).peekChar = c) (hc : c ≠ 0) :
    ∃ s', s = c :: s' := by
  cases s with
  | nil => exact absurd h.symm hc
  | cons d s => exact ⟨s, congrArg (· :: s) h⟩

theorem delimited_dropWhile (s : List UInt8) : Delimited (s.dropWhile isNumberChar) := by
  induction s with
  | nil => simp [Delimited]
  | cons c s ih =>
    rw [List.dropWhile_cons]
    split_ifs with h
    · exact ih
    · simpa [Delimited] using h

/-- One more level. -/
theorem ReadsText.value (he : ReadsText elem n) (h : jsonValueDecode elem ⟨s, none⟩ = .ok (v, q)) :
    ∃ t rest, q = ⟨rest, none⟩ ∧ s = t ++ rest ∧ ValueText t v ∧ v.depth < n + 1 ∧ Ends v rest := by
  unfold jsonValueDecode at h
  dsimp only at h
  split_ifs at h with hf ht hn hq ha ho hnum
  · split at h
    · rename_i p hp
      cases h
      obtain ⟨rest, rfl, rfl⟩ := of_trySkipSlice hp
      exact ⟨_, rest, rfl, rfl, .boolFalse, by simp [JsonValue.depth], by rintro t ⟨⟩⟩
    · cases h
  · split at h
    · rename_i p hp
      cases h
      obtain ⟨rest, rfl, rfl⟩ := of_trySkipSlice hp
      exact ⟨_, rest, rfl, rfl, .boolTrue, by simp [JsonValue.depth], by rintro t ⟨⟩⟩
    · cases h
  · split at h
    · rename_i p hp
      cases h
      obtain ⟨rest, rfl, rfl⟩ := of_trySkipSlice hp
      exact ⟨_, rest, rfl, rfl, .null, by simp [JsonValue.depth], by rintro t ⟨⟩⟩
    · cases h
  · split at h
    · cases h
    · rename_i d p hd
      cases h
      obtain ⟨r, rest, rfl, rfl, hchars⟩ := of_jsonStringDecode hd
      refine ⟨_, rest, rfl, ?_, .string hchars, by simp [JsonValue.depth], by rintro t ⟨⟩⟩
      simp
  · obtain ⟨s, rfl⟩ := of_peekChar ha (by decide)
    obtain ⟨w, rest, hskip, hw, rfl⟩ := of_skipWhitespaces s
    rw [Parser.skip_cons, hskip] at h
    split at h
    · rename_i p hp
      cases h
      obtain ⟨rest, rfl, rfl⟩ := of_trySkip hp
      refine ⟨_, rest, rfl, ?_, .emptyArray hw, by simp [JsonValue.depth, valuesDepth],
        by rintro t ⟨⟩⟩
      simp
    · obtain ⟨e, es, rest, rfl, rfl, hall, rfl⟩ := he.array h
      rw [List.forall_mem_cons] at hall
      refine ⟨chr '[' :: (separated (e.indent w).bytes (es.map Element.bytes) ++ [chr ']']), rest,
        rfl, ?_, ValueText.array (e := e.indent w) ?_ ?_, ?_, by rintro t ⟨⟩⟩
      · simp [separated, Element.bytes, Element.indent]
      · rw [List.forall_mem_cons]
        exact ⟨⟨hw.append hall.1.1.before, hall.1.1.after⟩, fun x hx ↦ (hall.2 x hx).1⟩
      · rw [List.forall_mem_cons]
        exact ⟨hall.1.2.1, fun x hx ↦ (hall.2 x hx).2.1⟩
      · rw [JsonValue.depth]
        refine Nat.lt_succ_of_le (valuesDepth_le ?_)
        simp only [List.nil_append, List.map_cons, List.forall_mem_cons, List.forall_mem_map]
        exact ⟨hall.1.2.2, fun x hx ↦ (hall.2 x hx).2.2⟩
  · obtain ⟨s, rfl⟩ := of_peekChar ho (by decide)
    obtain ⟨w, rest, hskip, hw, rfl⟩ := of_skipWhitespaces s
    rw [Parser.skip_cons, hskip] at h
    split at h
    · rename_i p hp
      cases h
      obtain ⟨rest, rfl, rfl⟩ := of_trySkip hp
      refine ⟨_, rest, rfl, ?_, .emptyObject hw, by simp [JsonValue.depth, fieldsDepth],
        by rintro t ⟨⟩⟩
      simp
    · obtain ⟨f, fs, rest, rfl, rfl, hall, rfl⟩ := he.object h
      rw [List.forall_mem_cons] at hall
      refine ⟨chr '{' :: (separated (f.indent w).bytes (fs.map Field.bytes) ++ [chr '}']), rest,
        rfl, ?_, ValueText.object (f := f.indent w) ?_ ?_, ?_, by rintro t ⟨⟩⟩
      · simp [separated, Field.bytes, Field.indent]
      · rw [List.forall_mem_cons]
        exact ⟨{ hall.1.1 with before := hw.append hall.1.1.before }, fun x hx ↦ (hall.2 x hx).1⟩
      · rw [List.forall_mem_cons]
        exact ⟨hall.1.2.1, fun x hx ↦ (hall.2 x hx).2.1⟩
      · rw [JsonValue.depth]
        refine Nat.lt_succ_of_le (fieldsDepth_le ?_)
        simp only [List.nil_append, List.map_cons, List.forall_mem_cons, List.forall_mem_map]
        exact ⟨hall.1.2.2, fun x hx ↦ (hall.2 x hx).2.2⟩
  · dsimp only [Parser.readWhile] at h
    cases h
    refine ⟨s.takeWhile isNumberChar, s.dropWhile isNumberChar, rfl,
      (List.takeWhile_append_dropWhile ..).symm, ?_, by simp [JsonValue.depth],
      fun _ _ ↦ delimited_dropWhile s⟩
    obtain ⟨s', hs⟩ := of_peekChar rfl (by rintro h; rw [h] at hnum; exact absurd hnum (by decide))
    rw [hs, List.takeWhile_cons, if_pos (isNumberChar_of_isNumberStart hnum)]
    exact .number hnum fun d hd ↦ List.mem_takeWhile_imp hd

theorem readsText_jsonDecodeLevels (n : ℕ) : ReadsText (jsonDecodeLevels n) n := by
  induction n with
  | zero =>
    intro s v q h
    cases h
  | succ n ih =>
    intro s v q h
    obtain ⟨w, rest, hskip, hw, rfl⟩ := of_skipWhitespaces s
    rw [jsonDecodeLevels, hskip] at h
    obtain ⟨t, rest', rfl, rfl, ht, hd, hends⟩ := ih.value h
    exact ⟨w, t, rest', rfl, rfl, hw, ht, hd, hends⟩

end Reading

/-! ## The parser reads what is in the grammar -/

section Taking

variable {elem : Parser → Except Failure (JsonValue × Parser)} {t w tail rest : List UInt8}
  {v : JsonValue} {e : Element} {f : Field}

/-- `elem` reads the text as the value, behind any whitespace. -/
def TakesText (elem : Parser → Except Failure (JsonValue × Parser)) (t : List UInt8)
    (v : JsonValue) : Prop :=
  ∀ w rest, Blank w → Ends v rest → elem ⟨w ++ (t ++ rest), none⟩ = .ok (v, ⟨rest, none⟩)

/-- What stands behind the first piece: the others, the bracket, and `rest`. -/
def pieceTail (pieces : List (List UInt8)) (close : UInt8) (rest : List UInt8) : List UInt8 :=
  pieces.flatMap (chr ',' :: ·) ++ close :: rest

theorem pieceTail_nil (close : UInt8) (rest : List UInt8) :
    pieceTail [] close rest = close :: rest := rfl

theorem pieceTail_cons (piece : List UInt8) (pieces : List (List UInt8)) (close : UInt8)
    (rest : List UInt8) :
    pieceTail (piece :: pieces) close rest = chr ',' :: (piece ++ pieceTail pieces close rest) := by
  simp [pieceTail]

theorem separated_append (first : List UInt8) (pieces : List (List UInt8)) (close : UInt8)
    (rest : List UInt8) :
    (separated first pieces ++ [close]) ++ rest = first ++ pieceTail pieces close rest := by
  simp [separated, pieceTail]

theorem delimited_blank (hw : Blank w) (hr : Delimited rest) : Delimited (w ++ rest) := by
  cases w with
  | nil => exact hr
  | cons d w =>
    have hd := hw d List.mem_cons_self
    simp only [Delimited, List.cons_append, List.head?_cons, Option.mem_def, Option.some.injEq,
      forall_eq']
    by_contra hn
    rw [not_isWhitespace_of_isNumberChar (by simpa using hn)] at hd
    exact absurd hd (by decide)

theorem delimited_pieceTail (pieces : List (List UInt8)) {close : UInt8}
    (hc : isNumberChar close = false) (rest : List UInt8) :
    Delimited (pieceTail pieces close rest) := by
  cases pieces with
  | nil => simpa [pieceTail_nil, Delimited] using hc
  | cons piece pieces =>
    rw [pieceTail_cons]
    simp +decide [Delimited]

/-! ### Whitespace in front of a value, a mark, or a field -/

theorem ValueText.start (h : ValueText t v) : ValueStart t := by
  cases h with
  | null => exact ⟨_, _, rfl, by decide, by decide⟩
  | boolFalse => exact ⟨_, _, rfl, by decide, by decide⟩
  | boolTrue => exact ⟨_, _, rfl, by decide, by decide⟩
  | number hc ht =>
    refine ⟨_, _, rfl, not_isWhitespace_of_isNumberChar (isNumberChar_of_isNumberStart hc), ?_⟩
    rintro rfl
    exact absurd hc (by decide)
  | string h => exact ⟨_, _, rfl, by decide, by decide⟩
  | emptyArray hw => exact ⟨_, _, rfl, by decide, by decide⟩
  | array hs h => exact ⟨_, _, rfl, by decide, by decide⟩
  | emptyObject hw => exact ⟨_, _, rfl, by decide, by decide⟩
  | object hs h => exact ⟨_, _, rfl, by decide, by decide⟩

theorem ValueStart.trySkip (h : ValueStart t) (rest : List UInt8) :
    (Parser.mk (t ++ rest) none).trySkip (chr ']') = none := by
  obtain ⟨c, t, rfl, -, hc⟩ := h
  exact Parser.trySkip_cons_of_ne hc _ _

theorem ValueStart.not_empty (h : ValueStart t) (rest : List UInt8) :
    (Parser.mk (t ++ rest) none).empty = false := by
  obtain ⟨c, t, rfl, -, -⟩ := h
  rfl

theorem skip_to_mark {c : UInt8} (hw : Blank w) (hc : Parser.isWhitespace c = false)
    (tail : List UInt8) :
    (Parser.mk (w ++ c :: tail) none).skipWhitespaces = ⟨c :: tail, none⟩ := by
  rw [Parser.skipWhitespaces_append hw, Parser.skipWhitespaces_cons_of_not hc]

theorem skip_to_element (hs : e.Spaced) (ht : ValueStart e.text) (tail : List UInt8) :
    (Parser.mk (e.bytes ++ tail) none).skipWhitespaces = ⟨e.text ++ (e.after ++ tail), none⟩ := by
  rw [Element.bytes, List.append_assoc, List.append_assoc, ht.skipWhitespaces hs.before]

/-- The field without the whitespace in front of it, and what follows. -/
def Field.entry (f : Field) (tail : List UInt8) : List UInt8 :=
  quote :: (f.raw ++ quote :: (f.after ++ chr ':' :: (f.element.bytes ++ tail)))

theorem Field.bytes_append (f : Field) (tail : List UInt8) :
    f.bytes ++ tail = f.before ++ f.entry tail := by
  simp [Field.bytes, Field.entry]

theorem Field.length_entry (f : Field) (tail : List UInt8) :
    tail.length ≤ (f.entry tail).length := by
  simp only [Field.entry, List.length_cons, List.length_append]
  omega

theorem skip_to_entry (hs : f.Spaced) (tail : List UInt8) :
    (Parser.mk (f.bytes ++ tail) none).skipWhitespaces = ⟨f.entry tail, none⟩ := by
  rw [f.bytes_append]
  exact skip_to_mark hs.before (by decide) _

/-! ### One round of a loop -/

theorem TakesText.element (h : TakesText elem e.text e.value) (hs : e.Spaced) (hw : Blank w)
    (hd : Delimited tail) :
    elem ⟨w ++ (e.text ++ (e.after ++ tail)), none⟩ = .ok (e.value, ⟨e.after ++ tail, none⟩) :=
  h w _ hw fun _ _ ↦ delimited_blank hs.after hd

theorem jsonStringDecode_quoted {s d : List UInt8} (h : StringChars s d) (rest : List UInt8) :
    jsonStringDecode ⟨quote :: (s ++ quote :: rest), none⟩ = .ok (d, ⟨rest, none⟩) := by
  rw [jsonStringDecode, Parser.trySkip_cons_self]
  simp only [h.decode, List.nil_append]

theorem TakesText.field (h : TakesText elem f.element.text f.element.value) (hs : f.Spaced)
    (hd : Delimited tail) :
    ∃ p q, jsonStringDecode ⟨f.entry tail, none⟩ = .ok (f.name, p) ∧
      p.skipWhitespaces.trySkip (chr ':') = some q ∧
      elem q = .ok (f.element.value, ⟨f.element.after ++ tail, none⟩) := by
  refine ⟨_, ⟨f.element.bytes ++ tail, none⟩, jsonStringDecode_quoted hs.name _, ?_, ?_⟩
  · rw [skip_to_mark hs.after (by decide), Parser.trySkip_cons_self]
  · rw [Element.bytes, List.append_assoc, List.append_assoc]
    exact h.element hs.element hs.element.before hd

/-! ### The loops -/

/-- An element that a loop can read. -/
structure Element.Readable (elem : Parser → Except Failure (JsonValue × Parser)) (e : Element) :
    Prop where
  spaced : e.Spaced
  start : ValueStart e.text
  takes : TakesText elem e.text e.value

/-- The array loop reads the elements that are left and the closing bracket. -/
theorem jsonArrayDecode_separated {es : List Element} (h : ∀ x ∈ e :: es, x.Readable elem)
    (rest : List UInt8) (n : ℕ) (res : List JsonValue)
    (hn : (e.text ++ (e.after ++ pieceTail (es.map Element.bytes) (chr ']') rest)).length < n) :
    jsonArrayDecode elem n
        ⟨e.text ++ (e.after ++ pieceTail (es.map Element.bytes) (chr ']') rest), none⟩ res =
      .ok (.array (res ++ (e :: es).map Element.value), ⟨rest, none⟩) := by
  have hd (es : List Element) : Delimited (pieceTail (es.map Element.bytes) (chr ']') rest) :=
    delimited_pieceTail _ (by decide) rest
  induction es generalizing e n res with
  | nil =>
    obtain ⟨hs, hstart, ht⟩ := h e List.mem_cons_self
    obtain ⟨k, rfl⟩ : ∃ k, n = k + 1 := ⟨n - 1, by omega⟩
    have hread := ht.element hs Blank.nil (hd [])
    rw [List.nil_append] at hread
    rw [jsonArrayDecode, hstart.not_empty, hread]
    simp only [Bool.false_eq_true, if_false, List.map_nil, pieceTail_nil,
      skip_to_mark hs.after (show Parser.isWhitespace (chr ']') = false by decide),
      Parser.trySkip_cons_self, List.map_cons]
  | cons e' es ih =>
    obtain ⟨hs, hstart, ht⟩ := h e List.mem_cons_self
    obtain ⟨hs', hstart', -⟩ := h e' (List.mem_cons_of_mem _ List.mem_cons_self)
    obtain ⟨k, rfl⟩ : ∃ k, n = k + 1 := ⟨n - 1, by omega⟩
    have hread := ht.element hs Blank.nil (hd (e' :: es))
    rw [List.nil_append] at hread
    rw [jsonArrayDecode, hstart.not_empty, hread]
    simp only [Bool.false_eq_true, if_false, List.map_cons, pieceTail_cons,
      skip_to_mark hs.after (show Parser.isWhitespace (chr ',') = false by decide),
      Parser.trySkip_cons_of_ne (show chr ',' ≠ chr ']' by decide), Parser.trySkip_cons_self,
      skip_to_element hs' hstart']
    rw [ih (fun x hx ↦ h x (List.mem_cons_of_mem _ hx)), List.append_assoc, List.singleton_append,
      List.map_cons]
    simp only [List.map_cons, pieceTail_cons, Element.bytes, List.length_append,
      List.length_cons] at hn ⊢
    omega

/-- The object loop, as `jsonArrayDecode_separated`. -/
theorem jsonObjectDecode_separated {fs : List Field}
    (h : ∀ x ∈ f :: fs, x.Spaced ∧ TakesText elem x.element.text x.element.value)
    (rest : List UInt8) (n : ℕ) (res : List (List UInt8 × JsonValue))
    (hn : (f.entry (pieceTail (fs.map Field.bytes) (chr '}') rest)).length < n) :
    jsonObjectDecode elem n ⟨f.entry (pieceTail (fs.map Field.bytes) (chr '}') rest), none⟩ res =
      .ok (.object (res ++ (f :: fs).map Field.value), ⟨rest, none⟩) := by
  have hd (fs : List Field) : Delimited (pieceTail (fs.map Field.bytes) (chr '}') rest) :=
    delimited_pieceTail _ (by decide) rest
  have he (f : Field) (tail : List UInt8) : (Parser.mk (f.entry tail) none).empty = false := rfl
  induction fs generalizing f n res with
  | nil =>
    obtain ⟨hs, ht⟩ := h f List.mem_cons_self
    obtain ⟨k, rfl⟩ : ∃ k, n = k + 1 := ⟨n - 1, by omega⟩
    obtain ⟨p, q, hp, hq, hv⟩ := ht.field hs (hd [])
    rw [jsonObjectDecode, he, hp]
    simp only [Bool.false_eq_true, if_false, hq, hv, List.map_nil, pieceTail_nil,
      skip_to_mark hs.element.after (show Parser.isWhitespace (chr '}') = false by decide),
      Parser.trySkip_cons_self, List.map_cons, Field.value]
  | cons f' fs ih =>
    obtain ⟨hs, ht⟩ := h f List.mem_cons_self
    have hs' := (h f' (List.mem_cons_of_mem _ List.mem_cons_self)).1
    obtain ⟨k, rfl⟩ : ∃ k, n = k + 1 := ⟨n - 1, by omega⟩
    obtain ⟨p, q, hp, hq, hv⟩ := ht.field hs (hd (f' :: fs))
    have hl := f.length_entry (pieceTail ((f' :: fs).map Field.bytes) (chr '}') rest)
    rw [jsonObjectDecode, he, hp]
    simp only [Bool.false_eq_true, if_false, hq, hv, List.map_cons, pieceTail_cons,
      skip_to_mark hs.element.after (show Parser.isWhitespace (chr ',') = false by decide),
      Parser.trySkip_cons_of_ne (show chr ',' ≠ chr '}' by decide), Parser.trySkip_cons_self,
      skip_to_entry hs', Field.value]
    rw [ih (fun x hx ↦ h x (List.mem_cons_of_mem _ hx)), List.append_assoc, List.singleton_append,
      List.map_cons, Field.value]
    rw [List.map_cons, pieceTail_cons] at hn
    rw [List.map_cons, pieceTail_cons, List.length_cons, Field.bytes_append,
      List.length_append] at hl
    rw [Field.bytes_append] at hn
    omega

/-! ### Values -/

/-- The `switch` reads a text if the level below reads the texts of what is less deep. -/
theorem jsonValueDecode_takes (h : ValueText t v)
    (hr : ∀ s u, u.depth < v.depth → ValueText s u → TakesText elem s u) (hd : Ends v rest) :
    jsonValueDecode elem ⟨t ++ rest, none⟩ = .ok (v, ⟨rest, none⟩) := by
  cases h with
  | null =>
    rw [jsonValueDecode]
    simp +decide only [Parser.trySkipSlice_append]
    rfl
  | boolFalse =>
    rw [jsonValueDecode]
    simp +decide only [Parser.trySkipSlice_append]
    rfl
  | boolTrue =>
    rw [jsonValueDecode]
    simp +decide only [Parser.trySkipSlice_append]
    rfl
  | number hc ht =>
    exact jsonValueDecode_numberText hc
      (List.forall_mem_cons.2 ⟨isNumberChar_of_isNumberStart hc, ht⟩) (hd _ rfl)
  | string hs =>
    rw [List.cons_append, List.append_assoc, List.singleton_append, jsonValueDecode,
      jsonStringDecode_quoted hs]
    simp +decide only [Parser.peekChar_cons, if_true, if_false]
  | emptyArray hw =>
    rw [List.cons_append, List.append_assoc, List.singleton_append]
    unfold jsonValueDecode
    simp +decide only [Parser.peekChar_cons, if_true, if_false, Parser.skip_cons]
    rw [skip_to_mark hw (by decide), Parser.trySkip_cons_self]
  | @array e es hs h =>
    have he : ∀ x ∈ e :: es, x.Readable elem := fun x hx ↦
      ⟨hs x hx, (h x hx).start, hr _ _ (depth_lt_valuesDepth (List.mem_map_of_mem hx)) (h x hx)⟩
    have hb := (he e List.mem_cons_self).start
    rw [List.cons_append, separated_append]
    unfold jsonValueDecode
    simp +decide only [Parser.peekChar_cons, if_true, if_false, Parser.skip_cons]
    rw [skip_to_element (he e List.mem_cons_self).spaced hb, hb.trySkip]
    exact jsonArrayDecode_separated he rest _ [] (Nat.lt_succ_self _)
  | emptyObject hw =>
    rw [List.cons_append, List.append_assoc, List.singleton_append]
    unfold jsonValueDecode
    simp +decide only [Parser.peekChar_cons, if_true, if_false, Parser.skip_cons]
    rw [skip_to_mark hw (by decide), Parser.trySkip_cons_self]
  | @object f fs hs h =>
    have hf : ∀ x ∈ f :: fs, x.Spaced ∧ TakesText elem x.element.text x.element.value := fun x hx ↦
      ⟨hs x hx, hr _ _ (depth_lt_fieldsDepth (List.mem_map_of_mem (f := Field.value) hx)) (h x hx)⟩
    have hb (tail : List UInt8) : (Parser.mk (f.entry tail) none).trySkip (chr '}') = none :=
      Parser.trySkip_cons_of_ne (by decide) _ _
    rw [List.cons_append, separated_append]
    unfold jsonValueDecode
    simp +decide only [Parser.peekChar_cons, if_true, if_false, Parser.skip_cons]
    rw [skip_to_entry (hs f List.mem_cons_self), hb]
    exact jsonObjectDecode_separated hf rest _ [] (Nat.lt_succ_self _)

/-- `do_json_decode` reads the texts of every value less deep than the levels it may use. -/
theorem takesText_jsonDecodeLevels {n : ℕ} (hn : v.depth < n) (h : ValueText t v) :
    TakesText (jsonDecodeLevels n) t v := by
  induction n generalizing t v with
  | zero => omega
  | succ n ih =>
    intro w rest hw hd
    rw [jsonDecodeLevels, h.start.skipWhitespaces hw]
    exact jsonValueDecode_takes h (fun s u hu hs ↦ ih (by omega) hs) hd

end Taking

/-! ## The language of `json_decode` -/

theorem ends_nil (v : JsonValue) : Ends v [] := fun _ _ ↦ by simp [Delimited]

theorem Blank.ends {w : List UInt8} (hw : Blank w) (v : JsonValue) : Ends v w := fun _ _ ↦ by
  have hd := delimited_blank hw (ends_nil (.number []) [] rfl)
  rwa [List.append_nil] at hd

/-- A text stands for one value. -/
theorem ValueText.unique {t : List UInt8} {v u : JsonValue} (h : ValueText t v)
    (h' : ValueText t u) : v = u := by
  have hv := takesText_jsonDecodeLevels (by omega : v.depth < max v.depth u.depth + 1) h
    [] [] Blank.nil (ends_nil v)
  have hu := takesText_jsonDecodeLevels (by omega : u.depth < max v.depth u.depth + 1) h'
    [] [] Blank.nil (ends_nil u)
  cases hv.symm.trans hu
  rfl

/-- `do_json_decode` reads a value if and only if a text of it comes next and it is not too deep. -/
theorem doJsonDecode_iff (s : List UInt8) (maxDepth : ℤ) (v : JsonValue) (q : Parser) :
    doJsonDecode ⟨s, none⟩ maxDepth = .ok (v, q) ↔ (v.depth : ℤ) ≤ maxDepth ∧
      ∃ w t rest, q = ⟨rest, none⟩ ∧ s = w ++ (t ++ rest) ∧ Blank w ∧ ValueText t v ∧
        Ends v rest := by
  have hmax : (v.depth : ℤ) ≤ maxDepth ↔ v.depth < (maxDepth + 1).toNat := by omega
  rw [hmax, doJsonDecode]
  constructor
  · intro h
    obtain ⟨w, t, rest, hq, hs, hw, ht, hd, he⟩ := readsText_jsonDecodeLevels _ h
    exact ⟨hd, w, t, rest, hq, hs, hw, ht, he⟩
  · rintro ⟨hd, w, t, rest, rfl, rfl, hw, ht, he⟩
    exact takesText_jsonDecodeLevels hd ht w rest hw he

/-- `json_decode` takes a text for a value if and only if the text is, between whitespace, a text of
the value, and the value is not too deep. -/
theorem jsonDecode_iff (text : List UInt8) (v : JsonValue) :
    jsonDecode text = .ok v ↔ (v.depth : ℤ) ≤ defaultMaxDepth ∧
      ∃ w t w', text = w ++ (t ++ w') ∧ Blank w ∧ ValueText t v ∧ Blank w' := by
  constructor
  · intro h
    cases hr : doJsonDecode { data := text } defaultMaxDepth with
    | error e => simp [jsonDecode, hr] at h
    | ok r =>
      obtain ⟨v', p⟩ := r
      simp only [jsonDecode, hr] at h
      split_ifs at h with he
      cases h
      obtain ⟨hd, w, t, rest, rfl, rfl, hw, ht, -⟩ := (doJsonDecode_iff ..).1 hr
      exact ⟨hd, w, t, rest, rfl, hw, ht, skipWhitespaces_empty_iff.1 he⟩
  · rintro ⟨hd, w, t, w', rfl, hw, ht, hw'⟩
    have hr := (doJsonDecode_iff ..).2 ⟨hd, w, t, w', rfl, rfl, hw, ht, hw'.ends v⟩
    rw [jsonDecode, hr]
    simp only [skipWhitespaces_empty_iff.2 hw', if_true]

end PxcCore.Json
