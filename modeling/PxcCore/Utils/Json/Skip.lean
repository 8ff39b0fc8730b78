import PxcCore.Utils.Json.Decode

/-!
# `do_json_skip` and its agreement with `do_json_decode`

`json_string_skip` and `do_json_skip` of `JsonBuilder.cpp` scan a value without building it.  They
are separate code; `doJsonSkip_agrees` shows that they succeed on the same inputs as the decoding
functions and stop at the same place.
-/

namespace PxcCore.Json

/-! ## The scanner -/

/-- The loop of `json_string_skip`: what is left behind the closing quote. -/
def jsonStringSkipLoop : List UInt8 → Except Failure (List UInt8)
  | [] => .error (.status "Closing '\"' not found")
  | c :: src =>
    if c = quote then .ok src
    else if c = backslash then
      match src with
      | [] => .error (.status "Closing '\"' not found")
      | e :: src =>
        if e = chr 'u' then
          match src with
          | h0 :: h1 :: h2 :: h3 :: src =>
            match hexNum h0 h1 h2 h3 with
            | none => .error (.status "Invalid \\u -- not hex digit")
            | some num =>
              if 0xD7FF < num ∧ num < 0xE000 then
                match src with
                | b0 :: b1 :: l0 :: l1 :: l2 :: l3 :: src' =>
                  if b0 = backslash ∧ b1 = chr 'u' then
                    match hexNum l0 l1 l2 l3 with
                    | none => .error (.status "Invalid \\u -- not hex digit")
                    | some newNum =>
                      if 0xD7FF < newNum ∧ newNum < 0xE000 then jsonStringSkipLoop src'
                      else jsonStringSkipLoop (b0 :: b1 :: l0 :: l1 :: l2 :: l3 :: src')
                  else jsonStringSkipLoop (b0 :: b1 :: l0 :: l1 :: l2 :: l3 :: src')
                | src => jsonStringSkipLoop src
              else jsonStringSkipLoop src
          | _ => .error (.status "\\u has less than 4 symbols")
        else jsonStringSkipLoop src
    else jsonStringSkipLoop src

/-- `json_string_skip`. -/
def jsonStringSkip (p : Parser) : Except Failure Parser :=
  match p.trySkip quote with
  | none => .error (.status "Opening '\"' expected")
  | some p =>
    match jsonStringSkipLoop p.data with
    | .error e => .error e
    | .ok rest => .ok { p with data := rest }

/-- The array loop of `do_json_skip`; `elem` is `do_json_skip` one level further down. -/
def jsonArraySkip (elem : Parser → Except Failure Parser) : Nat → Parser → Except Failure Parser
  | 0, _ => .error .fuel
  | n + 1, p =>
    if p.empty then .error (.status "Unexpected end")
    else
      match elem p with
      | .error e => .error e
      | .ok p =>
        let p := p.skipWhitespaces
        match p.trySkip (chr ']') with
        | some p => .ok p
        | none =>
          match p.trySkip (chr ',') with
          | some p => jsonArraySkip elem n p.skipWhitespaces
          | none => .error (.status "Unexpected symbol")

/-- The object loop of `do_json_skip`. -/
def jsonObjectSkip (elem : Parser → Except Failure Parser) : Nat → Parser → Except Failure Parser
  | 0, _ => .error .fuel
  | n + 1, p =>
    if p.empty then .error (.status "Unexpected end")
    else
      match jsonStringSkip p with
      | .error e => .error e
      | .ok p =>
        match p.skipWhitespaces.trySkip (chr ':') with
        | none => .error (.status "':' expected")
        | some p =>
          match elem p with
          | .error e => .error e
          | .ok p =>
            let p := p.skipWhitespaces
            match p.trySkip (chr '}') with
            | some p => .ok p
            | none =>
              match p.trySkip (chr ',') with
              | some p => jsonObjectSkip elem n p.skipWhitespaces
              | none => .error (.status "Unexpected symbol")

/-- The `switch` of `do_json_skip`. -/
def jsonValueSkip (elem : Parser → Except Failure Parser) (p : Parser) : Except Failure Parser :=
  let c := p.peekChar
  if c = chr 'f' then
    match p.trySkipSlice (['f', 'a', 'l', 's', 'e'].map chr) with
    | some p => .ok p
    | none => .error (.status "Starts with 'f' -- false expected")
  else if c = chr 't' then
    match p.trySkipSlice (['t', 'r', 'u', 'e'].map chr) with
    | some p => .ok p
    | none => .error (.status "Starts with 't' -- true expected")
  else if c = chr 'n' then
    match p.trySkipSlice (['n', 'u', 'l', 'l'].map chr) with
    | some p => .ok p
    | none => .error (.status "Starts with 'n' -- null expected")
  else if c = quote then jsonStringSkip p
  else if c = chr '[' then
    let p := (p.skip (chr '[')).skipWhitespaces
    match p.trySkip (chr ']') with
    | some p => .ok p
    | none => jsonArraySkip elem (p.data.length + 1) p
  else if c = chr '{' then
    let p := (p.skip (chr '{')).skipWhitespaces
    match p.trySkip (chr '}') with
    | some p => .ok p
    | none => jsonObjectSkip elem (p.data.length + 1) p
  else if isNumberStart c then .ok (p.readWhile isNumberChar).2
  else if c = 0 then .error (.status "Unexpected end")
  else .error (.status (unexpectedSymbol c))

/-- `do_json_skip`, by recursion on the number of levels left. -/
def jsonSkipLevels : Nat → Parser → Except Failure Parser
  | 0, _ => .error (.status "Too big object depth")
  | n + 1, p => jsonValueSkip (jsonSkipLevels n) p.skipWhitespaces

/-- `do_json_skip`. -/
def doJsonSkip (p : Parser) (maxDepth : Int) : Except Failure Parser :=
  jsonSkipLevels (maxDepth + 1).toNat p

/-! ## Agreement -/

/-- Two runs agree when both fail for a reason of the source, or both succeed at the same
position. -/
inductive Agree {α : Type} : Except Failure (α × Parser) → Except Failure Parser → Prop where
  | error (m n : String) : Agree (.error (.status m)) (.error (.status n))
  | ok (a : α) (p : Parser) : Agree (.ok (a, p)) (.ok p)

/-- One run succeeds exactly when the other does, at the same position. -/
theorem Agree.ok_iff {α : Type} {d : Except Failure (α × Parser)} {s : Except Failure Parser}
    (h : Agree d s) (p : Parser) : s = .ok p ↔ ∃ a, d = .ok (a, p) := by
  cases h <;> simp

theorem Agree.ne_fuel {α : Type} {d : Except Failure (α × Parser)} {s : Except Failure Parser}
    (h : Agree d s) : d ≠ .error .fuel ∧ s ≠ .error .fuel := by
  cases h <;> simp

theorem Agree.eq_ok {α : Type} {a : α} {p : Parser} {s : Except Failure Parser}
    (h : Agree (.ok (a, p)) s) : s = .ok p := by cases h; rfl

theorem Agree.eq_error {α : Type} {e : Failure} {s : Except Failure Parser}
    (h : Agree (α := α) (.error e) s) : ∃ m n, e = .status m ∧ s = .error (.status n) := by
  cases h with | error m n => exact ⟨m, n, rfl, rfl⟩

/-- The two string scanners fail with the same message or stop at the same place. -/
theorem jsonStringSkipLoop_eq (src dest : List UInt8) :
    jsonStringSkipLoop src = (jsonStringDecodeLoop src dest).map Prod.snd := by
  fun_induction jsonStringDecodeLoop src dest <;> rw [jsonStringSkipLoop.eq_def] <;>
    simp_all +decide [Except.map]

theorem jsonStringSkip_eq (p : Parser) :
    jsonStringSkip p = (jsonStringDecode p).map Prod.snd := by
  unfold jsonStringSkip jsonStringDecode
  cases p.trySkip quote with
  | none => rfl
  | some q =>
    simp only [jsonStringSkipLoop_eq q.data []]
    cases jsonStringDecodeLoop q.data [] <;> rfl

theorem jsonString_agree (p : Parser) : Agree (jsonStringDecode p) (jsonStringSkip p) := by
  rw [jsonStringSkip_eq]
  rcases h : jsonStringDecode p with (m | _) | ⟨s, q⟩
  · exact .error m m
  · exact absurd h (jsonStringDecode_ne_fuel p)
  · exact .ok s q

section Loops

variable {dec : Parser → Except Failure (JsonValue × Parser)}
variable {skip : Parser → Except Failure Parser}

/-- The array loops agree when the element functions do, as long as the budget lasts. -/
theorem jsonArray_agree (hd : Consumes dec) (hs : ∀ p, Agree (dec p) (skip p)) (n : Nat)
    (p : Parser) (res : List JsonValue) (hn : p.data.length < n) :
    Agree (jsonArrayDecode dec n p res) (jsonArraySkip skip n p) := by
  induction n generalizing p res with
  | zero => omega
  | succ n ih =>
    rw [jsonArrayDecode, jsonArraySkip]
    split_ifs
    · exact .error _ _
    have hp := hs p
    cases hv : dec p with
    | error e =>
      obtain ⟨m, m', rfl, hk⟩ := (hv ▸ hp).eq_error
      simp only [hk]
      exact .error _ _
    | ok r =>
      obtain ⟨v, q⟩ := r
      simp only [(hv ▸ hp).eq_ok]
      cases q.skipWhitespaces.trySkip (chr ']') with
      | some r => exact .ok _ _
      | none =>
        cases hc : q.skipWhitespaces.trySkip (chr ',') with
        | none =>
          simp only
          split_ifs <;> exact .error _ _
        | some r =>
          have h1 := hd.length_round hv hc
          have h2 := Parser.length_skipWhitespaces_le r
          exact ih _ _ (by omega)

/-- The object loops agree when the element functions do, as long as the budget lasts. -/
theorem jsonObject_agree (hd : Consumes dec) (hs : ∀ p, Agree (dec p) (skip p)) (n : Nat)
    (p : Parser) (fields : List (List UInt8 × JsonValue)) (hn : p.data.length < n) :
    Agree (jsonObjectDecode dec n p fields) (jsonObjectSkip skip n p) := by
  induction n generalizing p fields with
  | zero => omega
  | succ n ih =>
    rw [jsonObjectDecode, jsonObjectSkip]
    split_ifs
    · exact .error _ _
    have hstr := jsonString_agree p
    cases hf : jsonStringDecode p with
    | error e =>
      obtain ⟨m, m', rfl, hk⟩ := (hf ▸ hstr).eq_error
      simp only [hk]
      exact .error _ _
    | ok r =>
      obtain ⟨f, p'⟩ := r
      simp only [(hf ▸ hstr).eq_ok]
      cases hq : p'.skipWhitespaces.trySkip (chr ':') with
      | none => exact .error _ _
      | some q =>
        have hp := hs q
        cases hv : dec q with
        | error e =>
          obtain ⟨m, m', rfl, hk⟩ := (hv ▸ hp).eq_error
          simp only [hv, hk]
          exact .error _ _
        | ok r =>
          obtain ⟨v, r⟩ := r
          simp only [hv, (hv ▸ hp).eq_ok]
          cases r.skipWhitespaces.trySkip (chr '}') with
          | some s => exact .ok _ _
          | none =>
            cases hc : r.skipWhitespaces.trySkip (chr ',') with
            | none =>
              simp only
              split_ifs <;> exact .error _ _
            | some s =>
              have h1 := hd.length_field hf hq hv hc
              have h2 := Parser.length_skipWhitespaces_le s
              exact ih _ _ (by omega)

/-- One level of the two parsers agrees when the levels below do. -/
theorem jsonValue_agree (hd : Consumes dec) (hs : ∀ p, Agree (dec p) (skip p)) (p : Parser) :
    Agree (jsonValueDecode dec p) (jsonValueSkip skip p) := by
  simp only [jsonValueDecode, jsonValueSkip]
  split_ifs
  iterate 3
    · cases p.trySkipSlice _ <;> constructor
  · have hstr := jsonString_agree p
    cases hf : jsonStringDecode p with
    | error e =>
      obtain ⟨m, m', rfl, hk⟩ := (hf ▸ hstr).eq_error
      simp only [hk]
      exact .error _ _
    | ok r =>
      simp only [(hf ▸ hstr).eq_ok]
      exact .ok _ _
  · cases (p.skip (chr '[')).skipWhitespaces.trySkip (chr ']') with
    | some q => exact .ok _ _
    | none => exact jsonArray_agree hd hs _ _ _ (Nat.lt_succ_self _)
  · cases (p.skip (chr '{')).skipWhitespaces.trySkip (chr '}') with
    | some q => exact .ok _ _
    | none => exact jsonObject_agree hd hs _ _ _ (Nat.lt_succ_self _)
  · exact .ok _ _
  · exact .error _ _
  · exact .error _ _

end Loops

theorem jsonLevels_agree (n : Nat) (p : Parser) :
    Agree (jsonDecodeLevels n p) (jsonSkipLevels n p) := by
  induction n generalizing p with
  | zero => exact .error _ _
  | succ n ih => exact jsonValue_agree (consumes_jsonDecodeLevels n) ih _

/-- `do_json_decode` and `do_json_skip` agree on every input and every maximum depth: both return,
one succeeds exactly when the other does, and then both leave the parser at the same place.  The
two string functions accept the same texts and stop at the same place. -/
theorem doJsonSkip_agrees (p : Parser) (maxDepth : Int) :
    (doJsonDecode p maxDepth ≠ .error .fuel ∧ doJsonSkip p maxDepth ≠ .error .fuel) ∧
    (∀ q, doJsonSkip p maxDepth = .ok q ↔ ∃ v, doJsonDecode p maxDepth = .ok (v, q)) ∧
    (∀ q, jsonStringSkip p = .ok q ↔ ∃ s, jsonStringDecode p = .ok (s, q)) :=
  ⟨(jsonLevels_agree _ p).ne_fuel, (jsonLevels_agree _ p).ok_iff, (jsonString_agree p).ok_iff⟩

end PxcCore.Json
