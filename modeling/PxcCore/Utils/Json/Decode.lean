import PxcCore.Utils.Json.Parser
import PxcCore.Utils.Utf8

/-!
# `json_decode`

`json_string_decode`, `do_json_decode` and `json_decode` of `JsonBuilder.cpp` and `JsonBuilder.h`.
The `while (true)` loops of arrays and objects are loops over a step budget: `jsonArrayDecode` and
`jsonObjectDecode` give them one step more than there are bytes to read, and
`doJsonDecode_ne_fuel` shows that this is never used up.
-/

namespace PxcCore.Json

/-- `JsonValue`.  Number and string hold the bytes of the slice, an object its fields in order,
repeated names included. -/
inductive JsonValue where
  | null
  | number (text : List UInt8)
  | boolean (value : Bool)
  | string (text : List UInt8)
  | array (values : List JsonValue)
  | object (fieldValues : List (List UInt8 × JsonValue))

/-! ## Strings -/

/-- The loop of `json_string_decode`.  The first argument is what lies between `cur_src` and
`end`, the second what was written before `cur_dest`. -/
def jsonStringDecodeLoop : List UInt8 → List UInt8 → Except Failure (List UInt8 × List UInt8)
  | [], _ => .error (.status "Closing '\"' not found")
  | c :: src, dest =>
    if c = quote then .ok (dest, src)
    else if c = backslash then
      match src with
      | [] => .error (.status "Closing '\"' not found")
      | e :: src =>
        if e = chr 'b' then jsonStringDecodeLoop src (dest ++ [0x08])
        else if e = chr 'f' then jsonStringDecodeLoop src (dest ++ [0x0c])
        else if e = chr 'n' then jsonStringDecodeLoop src (dest ++ [0x0a])
        else if e = chr 'r' then jsonStringDecodeLoop src (dest ++ [0x0d])
        else if e = chr 't' then jsonStringDecodeLoop src (dest ++ [0x09])
        else if e = chr 'u' then
          match src with
          | h0 :: h1 :: h2 :: h3 :: src =>
            match hexNum h0 h1 h2 h3 with
            | none => .error (.status "Invalid \\u -- not hex digit")
            | some num =>
              if 0xD7FF < num ∧ num < 0xE000 then
                match src with
                | b0 :: b1 :: l0 :: l1 :: l2 :: l3 :: src' =>
                  if b0 = backslash ∧ b1 = chr 'u' then
                    match hexNum l0 l1 l2 l3 with
                    | none => .error (.status "Invalid \\u -- not hex digit")
                    | some newNum =>
                      if 0xD7FF < newNum ∧ newNum < 0xE000 then
                        jsonStringDecodeLoop src' (dest ++ Utf8.appendUtf8CharacterUnsafe
                          ((((num &&& 0x3FF) <<< 10) ||| (newNum &&& 0x3FF)) + 0x10000))
                      else
                        -- `cur_src -= 6`: the second escape is read again by the next round
                        jsonStringDecodeLoop (b0 :: b1 :: l0 :: l1 :: l2 :: l3 :: src')
                          (dest ++ Utf8.appendUtf8CharacterUnsafe num)
                  else
                    jsonStringDecodeLoop (b0 :: b1 :: l0 :: l1 :: l2 :: l3 :: src')
                      (dest ++ Utf8.appendUtf8CharacterUnsafe num)
                | src => jsonStringDecodeLoop src (dest ++ Utf8.appendUtf8CharacterUnsafe num)
              else jsonStringDecodeLoop src (dest ++ Utf8.appendUtf8CharacterUnsafe num)
          | _ => .error (.status "\\u has less than 4 symbols")
        else jsonStringDecodeLoop src (dest ++ [e])
    else jsonStringDecodeLoop src (dest ++ [c])

/-- `json_string_decode`: the decoded bytes and the parser behind the closing quote. -/
def jsonStringDecode (p : Parser) : Except Failure (List UInt8 × Parser) :=
  match p.trySkip quote with
  | none => .error (.status "Opening '\"' expected")
  | some p =>
    match jsonStringDecodeLoop p.data [] with
    | .error e => .error e
    | .ok (dest, rest) => .ok (dest, { p with data := rest })

/-! ## Values -/

/-- The bytes a number token starts with, the `case` labels `-`, `+`, `.` and `0` to `9`. -/
def isNumberStart (c : UInt8) : Bool :=
  c = chr '-' ∨ c = chr '+' ∨ c = chr '.' ∨ (chr '0' ≤ c ∧ c ≤ chr '9')

/-- The bytes `read_while` takes as part of a number. -/
def isNumberChar (c : UInt8) : Bool :=
  c = chr '-' ∨ (chr '0' ≤ c ∧ c ≤ chr '9') ∨ c = chr 'e' ∨ c = chr 'E' ∨ c = chr '+' ∨ c = chr '.'

/-- The error of the `default` branch.  The test `0 < next && next < 127` is made on a signed
`char`, so a byte from 128 on is not printed. -/
def unexpectedSymbol (c : UInt8) : String :=
  if 0 < c ∧ c < 127 then "Unexpected symbol '" ++ charText c ++ "'" else "Unexpected symbol"

/-- The loop over the elements of an array; `elem` is `do_json_decode` one level further down. -/
def jsonArrayDecode (elem : Parser → Except Failure (JsonValue × Parser)) :
    Nat → Parser → List JsonValue → Except Failure (JsonValue × Parser)
  | 0, _, _ => .error .fuel
  | n + 1, p, res =>
    if p.empty then .error (.status "Unexpected string end")
    else
      match elem p with
      | .error e => .error e
      | .ok (value, p) =>
        let res := res ++ [value]
        let p := p.skipWhitespaces
        match p.trySkip (chr ']') with
        | some p => .ok (.array res, p)
        | none =>
          match p.trySkip (chr ',') with
          | some p => jsonArrayDecode elem n p.skipWhitespaces res
          | none =>
            if p.empty then .error (.status "Unexpected string end")
            else .error (.status "Unexpected symbol while parsing JSON Array")

/-- The loop over the fields of an object. -/
def jsonObjectDecode (elem : Parser → Except Failure (JsonValue × Parser)) :
    Nat → Parser → List (List UInt8 × JsonValue) → Except Failure (JsonValue × Parser)
  | 0, _, _ => .error .fuel
  | n + 1, p, fieldValues =>
    if p.empty then .error (.status "Unexpected string end")
    else
      match jsonStringDecode p with
      | .error e => .error e
      | .ok (field, p) =>
        match p.skipWhitespaces.trySkip (chr ':') with
        | none => .error (.status "':' expected")
        | some p =>
          match elem p with
          | .error e => .error e
          | .ok (value, p) =>
            let fieldValues := fieldValues ++ [(field, value)]
            let p := p.skipWhitespaces
            match p.trySkip (chr '}') with
            | some p => .ok (.object fieldValues, p)
            | none =>
              match p.trySkip (chr ',') with
              | some p => jsonObjectDecode elem n p.skipWhitespaces fieldValues
              | none =>
                if p.empty then .error (.status "Unexpected string end")
                else .error (.status "Unexpected symbol while parsing JSON Object")

/-- The `switch` of `do_json_decode`, with the parser at the first byte of the value. -/
def jsonValueDecode (elem : Parser → Except Failure (JsonValue × Parser)) (p : Parser) :
    Except Failure (JsonValue × Parser) :=
  let c := p.peekChar
  if c = chr 'f' then
    match p.trySkipSlice (['f', 'a', 'l', 's', 'e'].map chr) with
    | some p => .ok (.boolean false, p)
    | none => .error (.status "Token starts with 'f' -- false expected")
  else if c = chr 't' then
    match p.trySkipSlice (['t', 'r', 'u', 'e'].map chr) with
    | some p => .ok (.boolean true, p)
    | none => .error (.status "Token starts with 't' -- true expected")
  else if c = chr 'n' then
    match p.trySkipSlice (['n', 'u', 'l', 'l'].map chr) with
    | some p => .ok (.null, p)
    | none => .error (.status "Token starts with 'n' -- null expected")
  else if c = quote then
    match jsonStringDecode p with
    | .error e => .error e
    | .ok (slice, p) => .ok (.string slice, p)
  else if c = chr '[' then
    let p := (p.skip (chr '[')).skipWhitespaces
    match p.trySkip (chr ']') with
    | some p => .ok (.array [], p)
    | none => jsonArrayDecode elem (p.data.length + 1) p []
  else if c = chr '{' then
    let p := (p.skip (chr '{')).skipWhitespaces
    match p.trySkip (chr '}') with
    | some p => .ok (.object [], p)
    | none => jsonObjectDecode elem (p.data.length + 1) p []
  else if isNumberStart c then
    let (num, p) := p.readWhile isNumberChar
    .ok (.number num, p)
  else if c = 0 then .error (.status "Unexpected string end")
  else .error (.status (unexpectedSymbol c))

/-- `do_json_decode`, by recursion on the number of levels left, `max_depth + 1`. -/
def jsonDecodeLevels : Nat → Parser → Except Failure (JsonValue × Parser)
  | 0, _ => .error (.status "Too big object depth")
  | n + 1, p => jsonValueDecode (jsonDecodeLevels n) p.skipWhitespaces

/-- `do_json_decode`.  A negative `max_depth` leaves no level. -/
def doJsonDecode (p : Parser) (maxDepth : Int) : Except Failure (JsonValue × Parser) :=
  jsonDecodeLevels (maxDepth + 1).toNat p

/-- `DEFAULT_MAX_DEPTH`. -/
def defaultMaxDepth : Int := 100

/-- `json_decode`. -/
def jsonDecode (json : List UInt8) : Except Failure JsonValue :=
  match doJsonDecode { data := json } defaultMaxDepth with
  | .error e => .error e
  | .ok (value, p) =>
    if p.skipWhitespaces.empty then .ok value else .error (.status "Expected string end")

/-! ## In-place decoding

`json_string_decode` writes the decoded text over the text it reads.  `cur_dest` stays behind
`cur_src`: what has been written and what is still to be read fit into the bytes between the
quotes, so a byte is never overwritten before it is read. -/

theorem jsonStringDecodeLoop_length {src dest d rest : List UInt8}
    (h : jsonStringDecodeLoop src dest = .ok (d, rest)) :
    rest.length < src.length ∧ d.length + rest.length < dest.length + src.length := by
  fun_induction jsonStringDecodeLoop src dest <;>
    (try simp only [List.length_cons, List.length_append, List.length_nil] at *) <;>
    grind [Utf8.append_length_le_four]

theorem jsonStringDecodeLoop_ne_fuel (src dest : List UInt8) :
    jsonStringDecodeLoop src dest ≠ .error .fuel := by
  fun_induction jsonStringDecodeLoop src dest <;> first | assumption | simp

theorem jsonStringDecode_ne_fuel (p : Parser) : jsonStringDecode p ≠ .error .fuel := by
  fun_cases jsonStringDecode p with
  | case1 => simp
  | case2 q hq e he =>
    rintro ⟨⟩
    exact jsonStringDecodeLoop_ne_fuel _ _ he
  | case3 => simp

theorem jsonStringDecode_length {p q : Parser} {s : List UInt8}
    (h : jsonStringDecode p = .ok (s, q)) : q.data.length < p.data.length := by
  unfold jsonStringDecode at h
  split at h
  · simp at h
  · rename_i p' hp
    split at h
    · simp at h
    · rename_i d rest hl
      cases h
      exact (jsonStringDecodeLoop_length hl).1.trans (Parser.length_trySkip hp)

/-! ## The loops end

A round of an array or object loop consumes at least the comma it ends with, so the budget given
to the loops is enough. -/

/-- What the bounds on the loops need of an element parser: it never exhausts a budget and never
leaves more to be read than it was given. -/
structure Consumes (elem : Parser → Except Failure (JsonValue × Parser)) : Prop where
  ne_fuel : ∀ p, elem p ≠ .error .fuel
  length_le : ∀ {p v q}, elem p = .ok (v, q) → q.data.length ≤ p.data.length

variable {elem : Parser → Except Failure (JsonValue × Parser)}

/-- What is left behind one element, its closing whitespace and the comma. -/
theorem Consumes.length_round (he : Consumes elem) {p q r : Parser} {v : JsonValue} {c : UInt8}
    (hv : elem p = .ok (v, q)) (hc : q.skipWhitespaces.trySkip c = some r) :
    r.data.length < p.data.length :=
  (Parser.length_trySkip hc).trans_le
    ((Parser.length_skipWhitespaces_le q).trans (he.length_le hv))

theorem Consumes.jsonArrayDecode_ne_fuel (he : Consumes elem) (n : Nat) (p : Parser)
    (res : List JsonValue) (hn : p.data.length < n) :
    jsonArrayDecode elem n p res ≠ .error .fuel := by
  fun_induction jsonArrayDecode elem n p res with
  | case1 => omega
  | case3 n p res hp e hv => exact fun h ↦ he.ne_fuel p (hv.trans h)
  | case5 n p res hp v q hv res' q' hb r hc ih =>
    have h1 := he.length_round hv hc
    have h2 := Parser.length_skipWhitespaces_le r
    exact ih (by omega)
  | _ => simp

theorem Consumes.jsonArrayDecode_length (he : Consumes elem) {n : Nat} {p q : Parser}
    {res : List JsonValue} {v : JsonValue} (h : jsonArrayDecode elem n p res = .ok (v, q)) :
    q.data.length ≤ p.data.length := by
  fun_induction jsonArrayDecode elem n p res with
  | case4 n p res hp v q' hv res' q'' r hc =>
    cases h
    exact (he.length_round hv hc).le
  | case5 n p res hp v q' hv res' q'' hb r hc ih =>
    have h1 := he.length_round hv hc
    have h2 := Parser.length_skipWhitespaces_le r
    have h3 := ih h
    omega
  | _ => simp at h

/-- What is left behind one field, its closing whitespace and the comma. -/
theorem Consumes.length_field (he : Consumes elem) {p p' q r s : Parser} {v : JsonValue}
    {f : List UInt8} {c d : UInt8} (hf : jsonStringDecode p = .ok (f, p'))
    (hq : p'.skipWhitespaces.trySkip c = some q) (hv : elem q = .ok (v, r))
    (hs : r.skipWhitespaces.trySkip d = some s) : s.data.length < p.data.length := by
  have h1 := jsonStringDecode_length hf
  have h2 := Parser.length_skipWhitespaces_le p'
  have h3 := Parser.length_trySkip hq
  have h4 := he.length_round hv hs
  omega

theorem Consumes.jsonObjectDecode_ne_fuel (he : Consumes elem) (n : Nat) (p : Parser)
    (fields : List (List UInt8 × JsonValue)) (hn : p.data.length < n) :
    jsonObjectDecode elem n p fields ≠ .error .fuel := by
  fun_induction jsonObjectDecode elem n p fields with
  | case1 => omega
  | case3 n p fields hp e hf =>
    rintro ⟨⟩
    exact jsonStringDecode_ne_fuel p hf
  | case5 n p fields hp f p' hf q hq e hv => exact fun h ↦ he.ne_fuel q (hv.trans h)
  | case7 n p fields hp f p' hf q hq v r hv fields' r' hb s hs ih =>
    have h1 := he.length_field hf hq hv hs
    have h2 := Parser.length_skipWhitespaces_le s
    exact ih (by omega)
  | _ => simp

theorem Consumes.jsonObjectDecode_length (he : Consumes elem) {n : Nat} {p q : Parser}
    {fields : List (List UInt8 × JsonValue)} {v : JsonValue}
    (h : jsonObjectDecode elem n p fields = .ok (v, q)) : q.data.length ≤ p.data.length := by
  fun_induction jsonObjectDecode elem n p fields with
  | case6 n p fields hp f p' hf q' hq v r hv fields' r' s hs =>
    cases h
    exact (he.length_field hf hq hv hs).le
  | case7 n p fields hp f p' hf q' hq v r hv fields' r' hb s hs ih =>
    have h1 := he.length_field hf hq hv hs
    have h2 := Parser.length_skipWhitespaces_le s
    have h3 := ih h
    omega
  | _ => simp at h

/-- One more level keeps the bounds. -/
theorem Consumes.value (he : Consumes elem) : Consumes (jsonValueDecode elem) where
  ne_fuel p := by
    simp only [jsonValueDecode]
    split_ifs
    all_goals try split
    all_goals try simp
    · rintro rfl
      exact jsonStringDecode_ne_fuel p ‹_›
    · exact he.jsonArrayDecode_ne_fuel _ _ _ (by simp)
    · exact he.jsonObjectDecode_ne_fuel _ _ _ (by simp)
  length_le {p v q} h := by
    simp only [jsonValueDecode] at h
    split_ifs at h
    all_goals try split at h
    all_goals try simp only [Except.ok.injEq, Prod.mk.injEq, reduceCtorEq] at h
    iterate 3
      · obtain ⟨-, rfl⟩ := h
        exact Parser.length_trySkipSlice_le ‹_›
    · obtain ⟨-, rfl⟩ := h
      exact (jsonStringDecode_length ‹_›).le
    · obtain ⟨-, rfl⟩ := h
      exact (Parser.length_trySkip ‹_›).le.trans (Parser.length_open_le p _)
    · exact (he.jsonArrayDecode_length h).trans (Parser.length_open_le p _)
    · obtain ⟨-, rfl⟩ := h
      exact (Parser.length_trySkip ‹_›).le.trans (Parser.length_open_le p _)
    · exact (he.jsonObjectDecode_length h).trans (Parser.length_open_le p _)
    · obtain ⟨-, rfl⟩ := h
      exact Parser.length_readWhile_le _ p

theorem consumes_jsonDecodeLevels : ∀ n, Consumes (jsonDecodeLevels n)
  | 0 => { ne_fuel := by simp [jsonDecodeLevels], length_le := by simp [jsonDecodeLevels] }
  | n + 1 =>
    { ne_fuel := fun p ↦ (consumes_jsonDecodeLevels n).value.ne_fuel _
      length_le := fun {p} _ _ h ↦ ((consumes_jsonDecodeLevels n).value.length_le h).trans
        (Parser.length_skipWhitespaces_le p) }

/-- `do_json_decode` always returns: no loop of it runs out of steps. -/
theorem doJsonDecode_ne_fuel (p : Parser) (maxDepth : Int) :
    doJsonDecode p maxDepth ≠ .error .fuel :=
  (consumes_jsonDecodeLevels _).ne_fuel p

end PxcCore.Json
