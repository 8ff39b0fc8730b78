import PxcCore.Utils.Json.StringRoundTrip

/-!
# Decoding what the builder wrote

`json_decode` gives back every value that `JsonBuilder` can write, from compact and from
pretty-printed text.  The writer is first reduced to a pure function from the value to its text,
`JsonValue.text`, which shows that none of its `CHECK`s fails; the parser is then run over that
text.
-/

namespace PxcCore.Json

/-! ## Well-formed values -/

/-- The strings of a value, names of fields included, are valid UTF-8. -/
inductive StringsValid : JsonValue → Prop where
  | null : StringsValid .null
  | boolean (b : Bool) : StringsValid (.boolean b)
  | number (text : List UInt8) : StringsValid (.number text)
  | string {text : List UInt8} (h : Utf8.Valid text) : StringsValid (.string text)
  | array {values : List JsonValue} (h : ∀ v ∈ values, StringsValid v) :
    StringsValid (.array values)
  | object {fieldValues : List (List UInt8 × JsonValue)} (hf : ∀ f ∈ fieldValues, Utf8.Valid f.1)
      (hv : ∀ f ∈ fieldValues, StringsValid f.2) : StringsValid (.object fieldValues)

/-- The values the round trip is about: number tokens are the ones `json_decode` accepts, strings
and field names are valid UTF-8.  Names may repeat. -/
inductive WellFormed : JsonValue → Prop where
  | null : WellFormed .null
  | boolean (b : Bool) : WellFormed (.boolean b)
  | number {text : List UInt8} (h : jsonDecode text = .ok (.number text)) :
    WellFormed (.number text)
  | string {text : List UInt8} (h : Utf8.Valid text) : WellFormed (.string text)
  | array {values : List JsonValue} (h : ∀ v ∈ values, WellFormed v) : WellFormed (.array values)
  | object {fieldValues : List (List UInt8 × JsonValue)} (hf : ∀ f ∈ fieldValues, Utf8.Valid f.1)
      (hv : ∀ f ∈ fieldValues, WellFormed f.2) : WellFormed (.object fieldValues)

theorem WellFormed.stringsValid {v : JsonValue} (h : WellFormed v) : StringsValid v := by
  induction h with
  | null => exact .null
  | boolean b => exact .boolean b
  | number _ => exact .number _
  | string h => exact .string h
  | array _ ih => exact .array ih
  | object hf _ ih => exact .object hf ih

mutual

/-- How many brackets are open around the most deeply nested value. -/
def JsonValue.depth : JsonValue → Nat
  | .array values => valuesDepth values
  | .object fieldValues => fieldsDepth fieldValues
  | _ => 0

def valuesDepth : List JsonValue → Nat
  | [] => 0
  | v :: values => max (v.depth + 1) (valuesDepth values)

def fieldsDepth : List (List UInt8 × JsonValue) → Nat
  | [] => 0
  | (_, v) :: fieldValues => max (v.depth + 1) (fieldsDepth fieldValues)

end

theorem depth_lt_valuesDepth {v : JsonValue} {values : List JsonValue} (h : v ∈ values) :
    v.depth < valuesDepth values := by
  induction values with
  | nil => simp at h
  | cons u values ih =>
    rw [valuesDepth]
    rcases List.mem_cons.1 h with rfl | h
    · omega
    · have := ih h
      omega

theorem depth_lt_fieldsDepth {f : List UInt8 × JsonValue}
    {fieldValues : List (List UInt8 × JsonValue)} (h : f ∈ fieldValues) :
    f.2.depth < fieldsDepth fieldValues := by
  induction fieldValues with
  | nil => simp at h
  | cons u fieldValues ih =>
    rw [fieldsDepth]
    rcases List.mem_cons.1 h with rfl | h
    · omega
    · have := ih h
      omega

/-! ## The text of a value -/

/-- What `operator<<(StringBuilder &, const JsonString &)` appends for `s`. -/
def stringText (s : List UInt8) : List UInt8 := (jsonString s []).getD []

theorem exists_stringText {s : List UInt8} (h : Utf8.Valid s) :
    ∃ t, Transcribes s t ∧ ∀ sb, jsonString s sb = some (sb ++ (quote :: (t ++ [quote]))) := by
  obtain ⟨t, ht⟩ := transcribes_of_valid h
  refine ⟨t, ht, fun sb ↦ ?_⟩
  have hs := ht.store [] (sb ++ [quote])
  rw [List.append_nil, jsonStringLoop] at hs
  simp [jsonString, hs]

theorem jsonString_eq {s : List UInt8} (h : Utf8.Valid s) (sb : List UInt8) :
    jsonString s sb = some (sb ++ stringText s) := by
  obtain ⟨t, -, ht⟩ := exists_stringText h
  simp [stringText, ht]

theorem stringText_head {s : List UInt8} (h : Utf8.Valid s) : ∃ t, stringText s = quote :: t := by
  obtain ⟨t, -, ht⟩ := exists_stringText h
  exact ⟨t ++ [quote], by simp [stringText, ht]⟩

/-- A string is read back from what was written for it. -/
theorem jsonStringDecode_stringText {s : List UInt8} (h : Utf8.Valid s) (rest : List UInt8) :
    jsonStringDecode ⟨stringText s ++ rest, none⟩ = .ok (s, ⟨rest, none⟩) := by
  obtain ⟨t, ht, hs⟩ := exists_stringText h
  have hd := ht.decode (quote :: rest) []
  rw [List.nil_append, jsonStringDecodeLoop.eq_def (quote :: rest)] at hd
  simp only [if_true] at hd
  simp [stringText, hs, jsonStringDecode, hd]

/-- What `print_offset` writes at offset `o`. -/
def offsetText (o : Int) : List UInt8 :=
  if 0 ≤ o then 0x0a :: (List.replicate o.toNat [0x20, 0x20, 0x20]).flatten else []

/-- The offset after `inc_offset`. -/
def incOffset (o : Int) : Int := if 0 ≤ o then o + 1 else o

/-- What separates a field name from its value. -/
def colonText (o : Int) : List UInt8 := if 0 ≤ o then [0x20, chr ':', 0x20] else [chr ':']

/-- The separator in front of an entry. -/
def entryText (o : Int) (first : Bool) : List UInt8 :=
  if first then offsetText o else chr ',' :: offsetText o

mutual

/-- The text of a value at offset `o`. -/
def JsonValue.text (o : Int) : JsonValue → List UInt8
  | .null => ['n', 'u', 'l', 'l'].map chr
  | .boolean true => ['t', 'r', 'u', 'e'].map chr
  | .boolean false => ['f', 'a', 'l', 's', 'e'].map chr
  | .number text => text
  | .string text => stringText text
  | .array values =>
    chr '[' :: (valuesText (incOffset o) true values ++ (offsetText o ++ [chr ']']))
  | .object fieldValues =>
    chr '{' :: (fieldsText (incOffset o) true fieldValues ++ (offsetText o ++ [chr '}']))

def valuesText (o : Int) : Bool → List JsonValue → List UInt8
  | _, [] => []
  | first, v :: values => entryText o first ++ (v.text o ++ valuesText o false values)

def fieldsText (o : Int) : Bool → List (List UInt8 × JsonValue) → List UInt8
  | _, [] => []
  | first, (field, v) :: fieldValues =>
    entryText o first ++ (stringText field ++ (colonText o ++
      (v.text o ++ fieldsText o false fieldValues)))

end

/-! ## Storing writes the text -/

namespace JsonBuilder

theorem write_write (jb : JsonBuilder) (s t : List UInt8) :
    (jb.write s).write t = jb.write (s ++ t) := by simp [write]

@[simp] theorem write_offset (jb : JsonBuilder) (s : List UInt8) :
    (jb.write s).offset = jb.offset :=
  rfl

@[simp] theorem write_scope (jb : JsonBuilder) (s : List UInt8) : (jb.write s).scope = jb.scope :=
  rfl

theorem printOffset_eq (jb : JsonBuilder) : jb.printOffset = jb.write (offsetText jb.offset) := by
  unfold printOffset offsetText
  split_ifs <;> simp [write]

@[simp] theorem incOffset_scope (jb : JsonBuilder) : jb.incOffset.scope = jb.scope := by
  unfold incOffset
  split_ifs <;> rfl

@[simp] theorem incOffset_offset (jb : JsonBuilder) :
    jb.incOffset.offset = Json.incOffset jb.offset := by
  unfold incOffset Json.incOffset
  split_ifs <;> rfl

end JsonBuilder

theorem startEntry_eq {s : JsonScope} {jb : JsonBuilder} (h : jb.scope = s.self) (first : Bool) :
    startEntry s first jb = some (jb.write (entryText jb.offset first)) := by
  cases first <;>
    simp [startEntry, h, JsonBuilder.printOffset_eq, JsonBuilder.write_write, entryText]

theorem writeValue_eq {f : List UInt8 → Option (List UInt8)} {t : List UInt8}
    (h : ∀ sb, f sb = some (sb ++ t)) (jb : JsonBuilder) :
    writeValue f jb = some (jb.write t) := by
  simp [writeValue, h, JsonBuilder.enterScope, JsonBuilder.leaveScope, JsonBuilder.write]

/-- A bracket scope around `body`, inside a value scope. -/
theorem bracket_eq (op cl : UInt8) (jb : JsonBuilder)
    (body : JsonScope → JsonBuilder → Option JsonBuilder)
    {t : List UInt8}
    (h : ∀ s jb', jb'.scope = s.self → jb'.offset = incOffset jb.offset →
      body s jb' = some (jb'.write t)) :
    (do
      let (s, jb) := jb.enterScope
      let (b, jb) := enterBracket op jb
      let jb ← body b jb
      let jb ← leaveBracket cl b jb
      jb.leaveScope s) = some (jb.write (op :: (t ++ (offsetText jb.offset ++ [cl])))) := by
  have hb := h (enterBracket op jb.enterScope.2).1 (enterBracket op jb.enterScope.2).2
    (by simp [enterBracket, JsonBuilder.enterScope])
    (by simp [enterBracket, JsonBuilder.enterScope])
  simp only [hb, Option.bind_eq_bind, Option.bind_some]
  by_cases ho : 0 ≤ jb.offset
  · have ho' : 0 < jb.offset + 1 := by omega
    simp [enterBracket, leaveBracket, JsonBuilder.enterScope, JsonBuilder.leaveScope,
      JsonBuilder.incOffset, JsonBuilder.decOffset, ho, ho', ho'.le, JsonBuilder.printOffset_eq,
      JsonBuilder.write]
  · simp [enterBracket, leaveBracket, JsonBuilder.enterScope, JsonBuilder.leaveScope,
      JsonBuilder.incOffset, JsonBuilder.decOffset, ho, JsonBuilder.printOffset_eq,
      JsonBuilder.write]

theorem storeValues_eq {values : List JsonValue} (h : ∀ v ∈ values, ∀ jb : JsonBuilder,
    v.store jb = some (jb.write (v.text jb.offset))) {arr : JsonScope} {jb : JsonBuilder}
    (hs : jb.scope = arr.self) (first : Bool) :
    storeValues arr first values jb = some (jb.write (valuesText jb.offset first values)) := by
  induction values generalizing first jb with
  | nil => simp [storeValues, valuesText, JsonBuilder.write]
  | cons v values ih =>
    rw [List.forall_mem_cons] at h
    rw [storeValues, startEntry_eq hs, Option.bind_eq_bind, Option.bind_some, h.1, Option.bind_some,
      ih h.2 (by simpa using hs), valuesText]
    simp [JsonBuilder.write_write]

theorem storeFields_eq {fieldValues : List (List UInt8 × JsonValue)}
    (hf : ∀ f ∈ fieldValues, Utf8.Valid f.1) (h : ∀ f ∈ fieldValues, ∀ jb : JsonBuilder,
    f.2.store jb = some (jb.write (f.2.text jb.offset))) {object : JsonScope} {jb : JsonBuilder}
    (hs : jb.scope = object.self) (first : Bool) :
    storeFields object first fieldValues jb =
      some (jb.write (fieldsText jb.offset first fieldValues)) := by
  induction fieldValues generalizing first jb with
  | nil => simp [storeFields, fieldsText, JsonBuilder.write]
  | cons f fieldValues ih =>
    obtain ⟨field, v⟩ := f
    rw [List.forall_mem_cons] at h hf
    have hc (jb : JsonBuilder) : (if jb.isPretty = true then [0x20, chr ':', 0x20] else [chr ':']) =
        colonText jb.offset := by simp [colonText, JsonBuilder.isPretty]
    simp only [storeFields, startEntry_eq hs, Option.bind_eq_bind, Option.bind_some,
      writeValue_eq (jsonString_eq hf.1), hc, h.1]
    rw [ih hf.2 h.2 (by simpa using hs), fieldsText]
    simp [JsonBuilder.write_write]

/-- No `CHECK` of the builder fails on a value with valid strings, and the text is
`JsonValue.text`. -/
theorem store_eq {v : JsonValue} (h : StringsValid v) (jb : JsonBuilder) :
    v.store jb = some (jb.write (v.text jb.offset)) := by
  induction h generalizing jb with
  | null => exact writeValue_eq (fun _ ↦ rfl) jb
  | boolean b => cases b <;> exact writeValue_eq (fun _ ↦ rfl) jb
  | number text => exact writeValue_eq (fun _ ↦ rfl) jb
  | string h => exact writeValue_eq (jsonString_eq h) jb
  | @array values h ih =>
    rw [JsonValue.store, JsonValue.text]
    refine bracket_eq _ _ jb (fun s jb' ↦ storeValues s true values jb') fun s jb' hs ho ↦ ?_
    rw [storeValues_eq ih hs, ho]
  | @object fieldValues hf hv ih =>
    rw [JsonValue.store, JsonValue.text]
    refine bracket_eq _ _ jb (fun s jb' ↦ storeFields s true fieldValues jb') fun s jb' hs ho ↦ ?_
    rw [storeFields_eq hf ih hs, ho]

/-! ## Reading the text -/

/-- What may follow a number token without becoming part of it. -/
def Delimited (rest : List UInt8) : Prop := ∀ c ∈ rest.head?, isNumberChar c = false

/-- `elem` reads `v` back from its text, at every offset and behind any whitespace. -/
def Reads (elem : Parser → Except Failure (JsonValue × Parser)) (v : JsonValue) : Prop :=
  ∀ (o : Int) (w rest : List UInt8), (∀ c ∈ w, Parser.isWhitespace c = true) → Delimited rest →
    elem ⟨w ++ (v.text o ++ rest), none⟩ = .ok (v, ⟨rest, none⟩)

theorem isWhitespace_offsetText (o : Int) : ∀ c ∈ offsetText o, Parser.isWhitespace c = true := by
  intro c hc
  unfold offsetText at hc
  split_ifs at hc with h
  · simp only [List.mem_cons, List.mem_flatten, List.mem_replicate] at hc
    rcases hc with rfl | ⟨l, ⟨-, rfl⟩, hc⟩
    · decide
    · have hs : c = 0x20 := by simpa using hc
      rw [hs]
      decide
  · simp at hc

theorem delimited_offsetText (o : Int) {c : UInt8} (h : isNumberChar c = false)
    (rest : List UInt8) : Delimited (offsetText o ++ c :: rest) := by
  unfold offsetText
  split_ifs
  · simp +decide [Delimited]
  · simpa [Delimited] using h

theorem entryText_true (o : Int) : entryText o true = offsetText o := rfl

/-- The parser stands at a byte a value starts with. -/
structure ValueStart (s : List UInt8) : Prop where
  start : ∃ c t, s = c :: t ∧ Parser.isWhitespace c = false ∧ c ≠ chr ']'

theorem ValueStart.skipWhitespaces {s : List UInt8} (h : ValueStart s) {w : List UInt8}
    (hw : ∀ c ∈ w, Parser.isWhitespace c = true) (rest : List UInt8) :
    (Parser.mk (w ++ (s ++ rest)) none).skipWhitespaces = ⟨s ++ rest, none⟩ := by
  obtain ⟨c, t, rfl, hc, -⟩ := h
  rw [Parser.skipWhitespaces_append hw, List.cons_append, Parser.skipWhitespaces_cons_of_not hc]

/-- `read_while` takes a number token and no more. -/
theorem readWhile_number {text rest : List UInt8} (h : ∀ c ∈ text, isNumberChar c = true)
    (hr : Delimited rest) :
    (Parser.mk (text ++ rest) none).readWhile isNumberChar = (text, ⟨rest, none⟩) := by
  have hd : rest.dropWhile isNumberChar = rest ∧ rest.takeWhile isNumberChar = [] := by
    cases rest with
    | nil => simp
    | cons c rest => simp [hr c (by simp)]
  simp [Parser.readWhile, List.takeWhile_append_of_pos h, List.dropWhile_append_of_pos h, hd]

theorem not_isNumberStart {d : UInt8}
    (h : d ∈ [chr 'f', chr 't', chr 'n', quote, chr '[', chr '{', chr ']']) :
    isNumberStart d = false := by
  simp only [List.mem_cons, List.not_mem_nil, or_false] at h
  rcases h with rfl | rfl | rfl | rfl | rfl | rfl | rfl <;> decide

theorem isNumberChar_of_isNumberStart {c : UInt8} (h : isNumberStart c = true) :
    isNumberChar c = true := by
  simp only [isNumberStart, isNumberChar, decide_eq_true_eq] at h ⊢
  tauto

theorem not_isWhitespace_of_isNumberChar {c : UInt8} (h : isNumberChar c = true) :
    Parser.isWhitespace c = false := by
  by_contra hw
  simp only [Parser.isWhitespace, Bool.not_eq_false, decide_eq_true_eq] at hw
  rcases hw with rfl | rfl | rfl | rfl <;> exact absurd h (by decide)

theorem jsonArrayDecode_ne_number {elem : Parser → Except Failure (JsonValue × Parser)} (n : Nat)
    (p q : Parser) (res : List JsonValue) (t : List UInt8) :
    jsonArrayDecode elem n p res ≠ .ok (.number t, q) := by
  fun_induction jsonArrayDecode elem n p res <;> simp_all

theorem jsonObjectDecode_ne_number {elem : Parser → Except Failure (JsonValue × Parser)} (n : Nat)
    (p q : Parser) (fieldValues : List (List UInt8 × JsonValue)) (t : List UInt8) :
    jsonObjectDecode elem n p fieldValues ≠ .ok (.number t, q) := by
  fun_induction jsonObjectDecode elem n p fieldValues <;> simp_all

/-- A number comes from the number branch only. -/
theorem jsonValueDecode_number {elem : Parser → Except Failure (JsonValue × Parser)} {p q : Parser}
    {t : List UInt8} (h : jsonValueDecode elem p = .ok (.number t, q)) :
    isNumberStart p.peekChar = true ∧ t = p.data.takeWhile isNumberChar := by
  simp only [jsonValueDecode] at h
  split_ifs at h with _ _ _ _ _ _ hc
  all_goals try split at h
  all_goals try simp only [Except.ok.injEq, Prod.mk.injEq, reduceCtorEq, false_and] at h
  · exact absurd h (jsonArrayDecode_ne_number _ _ _ _ _)
  · exact absurd h (jsonObjectDecode_ne_number _ _ _ _ _)
  · simp only [Parser.readWhile, JsonValue.number.injEq] at h
    exact ⟨hc, h.1.symm⟩

/-- The tokens `json_decode` accepts as a number: a byte that starts a number, among bytes of a
number. -/
theorem number_of_accepted {text : List UInt8} (h : jsonDecode text = .ok (.number text)) :
    (∃ c t, text = c :: t ∧ isNumberStart c = true) ∧ ∀ c ∈ text, isNumberChar c = true := by
  have hd : ∃ q, doJsonDecode { data := text } defaultMaxDepth = .ok (.number text, q) := by
    unfold jsonDecode at h
    split at h
    · simp at h
    · split_ifs at h
      cases h
      exact ⟨_, ‹_›⟩
  obtain ⟨q, hq⟩ := hd
  obtain ⟨hs, ht⟩ := @jsonValueDecode_number (jsonDecodeLevels 100) _ _ _ hq
  have hall : ∀ c ∈ text, isNumberChar c = true := by
    intro c hc
    rw [ht] at hc
    exact List.mem_takeWhile_imp hc
  refine ⟨?_, hall⟩
  cases text with
  | nil => exact absurd hs (by decide)
  | cons c t =>
    rw [Parser.skipWhitespaces_cons_of_not
      (not_isWhitespace_of_isNumberChar (hall c (by simp)))] at hs
    exact ⟨c, t, rfl, hs⟩

theorem valueStart_text {v : JsonValue} (h : WellFormed v) (o : Int) : ValueStart (v.text o) := by
  cases h with
  | null => exact ⟨_, _, rfl, by decide, by decide⟩
  | boolean b => cases b <;> exact ⟨_, _, rfl, by decide, by decide⟩
  | number h =>
    obtain ⟨⟨c, t, rfl, hc⟩, -⟩ := number_of_accepted h
    refine ⟨c, t, by rw [JsonValue.text], ?_, ?_⟩
    · exact not_isWhitespace_of_isNumberChar (isNumberChar_of_isNumberStart hc)
    · rintro rfl
      exact absurd hc (by decide)
  | string h =>
    obtain ⟨t, ht⟩ := stringText_head h
    exact ⟨quote, t, by rw [JsonValue.text, ht], by decide, by decide⟩
  | array h => exact ⟨_, _, by rw [JsonValue.text], by decide, by decide⟩
  | object hf hv => exact ⟨_, _, by rw [JsonValue.text], by decide, by decide⟩

/-! ### Arrays and objects -/

variable {elem : Parser → Except Failure (JsonValue × Parser)}

/-- What stands behind a value of an array: the other values, the bracket, and `rest`. -/
def valuesTail (i o : Int) (values : List JsonValue) (rest : List UInt8) : List UInt8 :=
  valuesText i false values ++ (offsetText o ++ chr ']' :: rest)

theorem valuesTail_nil (i o : Int) (rest : List UInt8) :
    valuesTail i o [] rest = offsetText o ++ chr ']' :: rest := rfl

theorem valuesTail_cons (i o : Int) (v : JsonValue) (values : List JsonValue) (rest : List UInt8) :
    valuesTail i o (v :: values) rest =
      chr ',' :: (offsetText i ++ (v.text i ++ valuesTail i o values rest)) := by
  simp [valuesTail, valuesText, entryText]

theorem delimited_valuesTail (i o : Int) (values : List JsonValue) (rest : List UInt8) :
    Delimited (valuesTail i o values rest) := by
  cases values with
  | nil => exact delimited_offsetText o (by decide) rest
  | cons v values =>
    rw [valuesTail_cons]
    simp +decide [Delimited]

/-- The array loop reads the values that are left and the closing bracket.  The induction is on
the values behind the current one; each round uses up the comma in front of the next. -/
theorem jsonArrayDecode_text {v : JsonValue} {values : List JsonValue}
    (h : ∀ u ∈ v :: values, WellFormed u ∧ Reads elem u) (i o : Int) (rest : List UInt8) (n : Nat)
    (res : List JsonValue) (hn : (v.text i ++ valuesTail i o values rest).length < n) :
    jsonArrayDecode elem n ⟨v.text i ++ valuesTail i o values rest, none⟩ res =
      .ok (.array (res ++ v :: values), ⟨rest, none⟩) := by
  induction values generalizing v n res with
  | nil =>
    obtain ⟨hw, hr⟩ := h v (by simp)
    obtain ⟨k, rfl⟩ : ∃ k, n = k + 1 := ⟨n - 1, by omega⟩
    have he : (Parser.mk (v.text i ++ valuesTail i o [] rest) none).empty = false := by
      obtain ⟨c, t, hc, -, -⟩ := valueStart_text hw i
      simp [Parser.empty, hc]
    have hd := delimited_valuesTail i o [] rest
    have hs := hr i [] _ (by simp) hd
    rw [List.nil_append] at hs
    rw [jsonArrayDecode, he, hs]
    simp only [Bool.false_eq_true, if_false, valuesTail_nil,
      Parser.skipWhitespaces_append (isWhitespace_offsetText o),
      Parser.skipWhitespaces_cons_of_not (show Parser.isWhitespace (chr ']') = false by decide),
      Parser.trySkip_cons_self]
  | cons u values ih =>
    obtain ⟨hw, hr⟩ := h v (by simp)
    obtain ⟨k, rfl⟩ : ∃ k, n = k + 1 := ⟨n - 1, by omega⟩
    have he : (Parser.mk (v.text i ++ valuesTail i o (u :: values) rest) none).empty = false := by
      obtain ⟨c, t, hc, -, -⟩ := valueStart_text hw i
      simp [Parser.empty, hc]
    have hd := delimited_valuesTail i o (u :: values) rest
    have hs := hr i [] _ (by simp) hd
    have hu := valueStart_text (h u (by simp)).1 i
    rw [List.nil_append] at hs
    rw [jsonArrayDecode, he, hs]
    simp only [Bool.false_eq_true, if_false, valuesTail_cons,
      Parser.skipWhitespaces_cons_of_not (show Parser.isWhitespace (chr ',') = false by decide),
      Parser.trySkip_cons_of_ne (show chr ',' ≠ chr ']' by decide), Parser.trySkip_cons_self,
      hu.skipWhitespaces (isWhitespace_offsetText i)]
    rw [ih (fun x hx ↦ h x (List.mem_cons_of_mem _ hx)), List.append_assoc, List.singleton_append]
    simp only [valuesTail_cons, List.length_append, List.length_cons] at hn ⊢
    omega

/-- What stands behind a field of an object. -/
def fieldsTail (i o : Int) (fieldValues : List (List UInt8 × JsonValue)) (rest : List UInt8) :
    List UInt8 :=
  fieldsText i false fieldValues ++ (offsetText o ++ chr '}' :: rest)

/-- A field without what separates it from the one before. -/
def fieldText (i : Int) (f : List UInt8 × JsonValue) (tail : List UInt8) : List UInt8 :=
  stringText f.1 ++ (colonText i ++ (f.2.text i ++ tail))

theorem fieldsTail_nil (i o : Int) (rest : List UInt8) :
    fieldsTail i o [] rest = offsetText o ++ chr '}' :: rest := rfl

theorem fieldsTail_cons (i o : Int) (f : List UInt8 × JsonValue)
    (fieldValues : List (List UInt8 × JsonValue)) (rest : List UInt8) :
    fieldsTail i o (f :: fieldValues) rest =
      chr ',' :: (offsetText i ++ fieldText i f (fieldsTail i o fieldValues rest)) := by
  simp [fieldsTail, fieldsText, fieldText, entryText]

theorem delimited_fieldsTail (i o : Int) (fieldValues : List (List UInt8 × JsonValue))
    (rest : List UInt8) : Delimited (fieldsTail i o fieldValues rest) := by
  cases fieldValues with
  | nil => exact delimited_offsetText o (by decide) rest
  | cons v fieldValues =>
    rw [fieldsTail_cons]
    simp +decide [Delimited]

theorem length_fieldText (i : Int) (f : List UInt8 × JsonValue) (tail : List UInt8) :
    tail.length ≤ (fieldText i f tail).length := by
  simp only [fieldText, List.length_append]
  omega

theorem fieldText_head {f : List UInt8 × JsonValue} (h : Utf8.Valid f.1) (i : Int)
    (tail : List UInt8) : ∃ t, fieldText i f tail = quote :: t := by
  obtain ⟨t, ht⟩ := stringText_head h
  exact ⟨_, by rw [fieldText, ht, List.cons_append]⟩

theorem skip_to_field {f : List UInt8 × JsonValue} (h : Utf8.Valid f.1) (i j : Int)
    (tail : List UInt8) : (Parser.mk (offsetText j ++ fieldText i f tail) none).skipWhitespaces =
      ⟨fieldText i f tail, none⟩ := by
  obtain ⟨t, ht⟩ := fieldText_head h i tail
  rw [Parser.skipWhitespaces_append (isWhitespace_offsetText j), ht,
    Parser.skipWhitespaces_cons_of_not (by decide)]

/-- The whitespace between the colon and the value. -/
def colonTail (i : Int) : List UInt8 := if 0 ≤ i then [0x20] else []

theorem isWhitespace_space : ∀ c ∈ [(0x20 : UInt8)], Parser.isWhitespace c = true := by
  rintro c hc
  rw [List.mem_singleton.1 hc]
  decide

theorem skip_colonText (i : Int) (rest : List UInt8) :
    (Parser.mk (colonText i ++ rest) none).skipWhitespaces.trySkip (chr ':') =
      some ⟨colonTail i ++ rest, none⟩ := by
  unfold colonText colonTail
  split_ifs
  · rw [show [(0x20 : UInt8), chr ':', 0x20] ++ rest = [0x20] ++ (chr ':' :: 0x20 :: rest) from rfl,
      Parser.skipWhitespaces_append isWhitespace_space,
      Parser.skipWhitespaces_cons_of_not (by decide),
      Parser.trySkip_cons_self]
    rfl
  · rw [List.singleton_append, Parser.skipWhitespaces_cons_of_not (by decide),
      Parser.trySkip_cons_self, List.nil_append]

theorem isWhitespace_colonTail (i : Int) : ∀ c ∈ colonTail i, Parser.isWhitespace c = true := by
  unfold colonTail
  split_ifs
  · exact isWhitespace_space
  · simp

/-- One round of the object loop up to the value behind the colon. -/
theorem readField {f : List UInt8 × JsonValue} (hf : Utf8.Valid f.1) (hr : Reads elem f.2)
    (i : Int) {tail : List UInt8} (ht : Delimited tail) :
    ∃ p q, jsonStringDecode ⟨fieldText i f tail, none⟩ = .ok (f.1, p) ∧
      p.skipWhitespaces.trySkip (chr ':') = some q ∧ elem q = .ok (f.2, ⟨tail, none⟩) :=
  ⟨_, _, jsonStringDecode_stringText hf _, skip_colonText i _,
    hr i _ tail (isWhitespace_colonTail i) ht⟩

/-- The object loop, as `jsonArrayDecode_text`. -/
theorem jsonObjectDecode_text {f : List UInt8 × JsonValue}
    {fieldValues : List (List UInt8 × JsonValue)}
    (h : ∀ g ∈ f :: fieldValues, Utf8.Valid g.1 ∧ Reads elem g.2) (i o : Int) (rest : List UInt8)
    (n : Nat) (res : List (List UInt8 × JsonValue))
    (hn : (fieldText i f (fieldsTail i o fieldValues rest)).length < n) :
    jsonObjectDecode elem n ⟨fieldText i f (fieldsTail i o fieldValues rest), none⟩ res =
      .ok (.object (res ++ f :: fieldValues), ⟨rest, none⟩) := by
  induction fieldValues generalizing f n res with
  | nil =>
    obtain ⟨hf, hr⟩ := h f (by simp)
    obtain ⟨k, rfl⟩ : ∃ k, n = k + 1 := ⟨n - 1, by omega⟩
    have he : (Parser.mk (fieldText i f (fieldsTail i o [] rest)) none).empty = false := by
      obtain ⟨t, ht⟩ := fieldText_head hf i (fieldsTail i o [] rest)
      simp [Parser.empty, ht]
    obtain ⟨p, q, hp, hq, hv⟩ := readField hf hr i (delimited_fieldsTail i o [] rest)
    rw [jsonObjectDecode, he, hp]
    simp only [Bool.false_eq_true, if_false, hq, hv, fieldsTail_nil,
      Parser.skipWhitespaces_append (isWhitespace_offsetText o),
      Parser.skipWhitespaces_cons_of_not (show Parser.isWhitespace (chr '}') = false by decide),
      Parser.trySkip_cons_self]
  | cons g fieldValues ih =>
    obtain ⟨hf, hr⟩ := h f (by simp)
    obtain ⟨k, rfl⟩ : ∃ k, n = k + 1 := ⟨n - 1, by omega⟩
    have he : (Parser.mk (fieldText i f (fieldsTail i o (g :: fieldValues) rest)) none).empty =
        false := by
      obtain ⟨t, ht⟩ := fieldText_head hf i (fieldsTail i o (g :: fieldValues) rest)
      simp [Parser.empty, ht]
    obtain ⟨p, q, hp, hq, hv⟩ :=
      readField hf hr i (delimited_fieldsTail i o (g :: fieldValues) rest)
    rw [jsonObjectDecode, he, hp]
    simp only [Bool.false_eq_true, if_false, hq, hv, fieldsTail_cons,
      Parser.skipWhitespaces_cons_of_not (show Parser.isWhitespace (chr ',') = false by decide),
      Parser.trySkip_cons_of_ne (show chr ',' ≠ chr '}' by decide), Parser.trySkip_cons_self,
      skip_to_field (h g (by simp)).1]
    rw [ih (fun x hx ↦ h x (List.mem_cons_of_mem _ hx)), List.append_assoc, List.singleton_append]
    have hl := length_fieldText i f (fieldsTail i o (g :: fieldValues) rest)
    simp only [fieldsTail_cons, List.length_append, List.length_cons] at hn hl ⊢
    omega

/-! ### Values -/

theorem jsonValueDecode_array {values : List JsonValue}
    (h : ∀ u ∈ values, WellFormed u ∧ Reads elem u) (o : Int) (rest : List UInt8) :
    jsonValueDecode elem ⟨(JsonValue.array values).text o ++ rest, none⟩ =
      .ok (.array values, ⟨rest, none⟩) := by
  have hb : Parser.isWhitespace (chr ']') = false := by decide
  rw [JsonValue.text, List.cons_append, List.append_assoc, List.append_assoc,
    List.singleton_append]
  unfold jsonValueDecode
  simp +decide only [Parser.peekChar_cons, if_true, if_false, Parser.skip_cons]
  cases values with
  | nil =>
    rw [valuesText, List.nil_append, Parser.skipWhitespaces_append (isWhitespace_offsetText o),
      Parser.skipWhitespaces_cons_of_not hb, Parser.trySkip_cons_self]
  | cons v values =>
    have hv := valueStart_text (h v (by simp)).1 (incOffset o)
    rw [valuesText, List.append_assoc, List.append_assoc, entryText_true,
      hv.skipWhitespaces (isWhitespace_offsetText _)]
    have hn : (Parser.mk ((v.text (incOffset o)) ++ (valuesText (incOffset o) false values ++
        (offsetText o ++ chr ']' :: rest))) none).trySkip (chr ']') = none := by
      obtain ⟨c, t, hc, -, hne⟩ := hv
      rw [hc, List.cons_append, Parser.trySkip_cons_of_ne hne]
    rw [hn]
    exact jsonArrayDecode_text h (incOffset o) o rest _ [] (Nat.lt_succ_self _)

theorem jsonValueDecode_object {fieldValues : List (List UInt8 × JsonValue)}
    (h : ∀ f ∈ fieldValues, Utf8.Valid f.1 ∧ Reads elem f.2) (o : Int) (rest : List UInt8) :
    jsonValueDecode elem ⟨(JsonValue.object fieldValues).text o ++ rest, none⟩ =
      .ok (.object fieldValues, ⟨rest, none⟩) := by
  have hb : Parser.isWhitespace (chr '}') = false := by decide
  rw [JsonValue.text, List.cons_append, List.append_assoc, List.append_assoc,
    List.singleton_append]
  unfold jsonValueDecode
  simp +decide only [Parser.peekChar_cons, if_true, if_false, Parser.skip_cons]
  cases fieldValues with
  | nil =>
    rw [fieldsText, List.nil_append, Parser.skipWhitespaces_append (isWhitespace_offsetText o),
      Parser.skipWhitespaces_cons_of_not hb, Parser.trySkip_cons_self]
  | cons f fieldValues =>
    have hf := (h f (by simp)).1
    have he :
        fieldsText (incOffset o) true (f :: fieldValues) ++ (offsetText o ++ chr '}' :: rest) =
        offsetText (incOffset o) ++ fieldText (incOffset o) f
          (fieldsTail (incOffset o) o fieldValues rest) := by
      simp [fieldsText, fieldText, fieldsTail, entryText]
    have hn : (Parser.mk (fieldText (incOffset o) f
        (fieldsTail (incOffset o) o fieldValues rest)) none).trySkip (chr '}') = none := by
      obtain ⟨t, ht⟩ :=
        fieldText_head hf (incOffset o) (fieldsTail (incOffset o) o fieldValues rest)
      rw [ht, Parser.trySkip_cons_of_ne (by decide)]
    rw [he, skip_to_field hf, hn]
    exact jsonObjectDecode_text h (incOffset o) o rest _ [] (Nat.lt_succ_self _)

/-- A number token is read whole. -/
theorem jsonValueDecode_numberText {c : UInt8} {t rest : List UInt8} (hc : isNumberStart c = true)
    (hall : ∀ d ∈ c :: t, isNumberChar d = true) (hd : Delimited rest) :
    jsonValueDecode elem ⟨c :: t ++ rest, none⟩ = .ok (.number (c :: t), ⟨rest, none⟩) := by
  have hne : ∀ d ∈ [chr 'f', chr 't', chr 'n', quote, chr '[', chr '{', chr ']'], c ≠ d := by
    rintro d hd rfl
    rw [not_isNumberStart hd] at hc
    exact absurd hc (by decide)
  simp only [List.forall_mem_cons, List.not_mem_nil, false_imp_iff, implies_true, and_true] at hne
  rw [jsonValueDecode, readWhile_number hall hd]
  simp only [List.cons_append, Parser.peekChar_cons, hne, hc, if_true, if_false]

/-- The `switch` reads a value back when the level below reads back what is less deep. -/
theorem jsonValueDecode_text {v : JsonValue} (hw : WellFormed v) (o : Int) {rest : List UInt8}
    (hd : Delimited rest) (hr : ∀ u, u.depth < v.depth → WellFormed u → Reads elem u) :
    jsonValueDecode elem ⟨v.text o ++ rest, none⟩ = .ok (v, ⟨rest, none⟩) := by
  cases hw with
  | null =>
    rw [jsonValueDecode, JsonValue.text]
    simp +decide only [Parser.trySkipSlice_append]
    rfl
  | boolean b =>
    cases b <;>
    · rw [jsonValueDecode, JsonValue.text]
      simp +decide only [Parser.trySkipSlice_append]
      rfl
  | @number text h =>
    obtain ⟨⟨c, t, rfl, hc⟩, hall⟩ := number_of_accepted h
    rw [JsonValue.text]
    exact jsonValueDecode_numberText hc hall hd
  | string h =>
    obtain ⟨t, ht⟩ := stringText_head h
    rw [jsonValueDecode, JsonValue.text, jsonStringDecode_stringText h, ht]
    simp +decide only [List.cons_append, Parser.peekChar_cons, if_true, if_false]
  | array h =>
    exact
      jsonValueDecode_array (fun u hu ↦ ⟨h u hu, hr u (depth_lt_valuesDepth hu) (h u hu)⟩) o rest
  | object hf hv =>
    exact jsonValueDecode_object
      (fun f hm ↦ ⟨hf f hm, hr f.2 (depth_lt_fieldsDepth hm) (hv f hm)⟩) o rest

/-- `do_json_decode` reads back every value less deep than the levels it may use. -/
theorem jsonDecodeLevels_text {n : Nat} {v : JsonValue} (hn : v.depth < n) (hw : WellFormed v) :
    Reads (jsonDecodeLevels n) v := by
  induction n generalizing v with
  | zero => omega
  | succ n ih =>
    intro o w rest hws hd
    rw [jsonDecodeLevels, (valueStart_text hw o).skipWhitespaces hws]
    exact jsonValueDecode_text hw o hd fun u hu hwu ↦ ih (by omega) hwu

/-- Encoding a value and decoding the text gives the value back, pretty-printed or not. -/
theorem jsonDecode_jsonEncode {v : JsonValue} (hw : WellFormed v)
    (hd : (v.depth : Int) ≤ defaultMaxDepth) (pretty : Bool) :
    ∃ text, jsonEncode v pretty = some text ∧ jsonDecode text = .ok v := by
  have hlt : v.depth < (defaultMaxDepth + 1).toNat := by
    have : defaultMaxDepth = 100 := rfl
    omega
  have read (o : Int) (w : List UInt8) (hws : ∀ c ∈ w, Parser.isWhitespace c = true) :
      jsonDecode (v.text o ++ w) = .ok v := by
    have hdel : Delimited w := by
      intro c hc
      have hm := hws c (List.mem_of_mem_head? hc)
      by_contra hn
      rw [not_isWhitespace_of_isNumberChar (by simpa using hn)] at hm
      exact absurd hm (by decide)
    have hr := jsonDecodeLevels_text hlt hw o [] w (by simp) hdel
    have hs : (Parser.mk w none).skipWhitespaces.empty = true := by
      simpa [Parser.skipWhitespaces, Parser.empty, List.dropWhile_eq_nil_iff] using hws
    rw [List.nil_append] at hr
    rw [jsonDecode, doJsonDecode, hr]
    simp only [hs, if_true]
  cases pretty with
  | true =>
    refine ⟨v.text 0 ++ [0x0a], ?_, read 0 _ ?_⟩
    rotate_left
    · rintro c hc
      rw [List.mem_singleton.1 hc]
      decide
    simp [jsonEncode, store_eq hw.stringsValid, JsonBuilder.write]
  | false =>
    refine ⟨v.text (-1), ?_, by simpa using read (-1) [] (by simp)⟩
    simp [jsonEncode, store_eq hw.stringsValid, JsonBuilder.write]

/-- An object with a name outside ASCII, a number, and an empty array. -/
theorem jsonDecode_jsonEncode_nested : ∃ text,
    jsonEncode (.object [([0xc3, 0xa9], .array [.number [0x31], .null]), ([], .array [])]) true =
      some text ∧
    jsonDecode text =
      .ok (.object [([0xc3, 0xa9], .array [.number [0x31], .null]), ([], .array [])]) := by
  refine jsonDecode_jsonEncode ?_ (by decide) true
  have hn : WellFormed (.number [0x31]) := .number rfl
  apply WellFormed.object
  · simp only [List.forall_mem_cons]
    exact ⟨⟨['é'], by decide⟩, .nil, by simp⟩
  · simp only [List.forall_mem_cons]
    exact ⟨.array (by simp [hn, WellFormed.null]), .array (by simp), by simp⟩

end PxcCore.Json
