import PxcCore.Utils.Json.InPlaceString

/-!
# `do_json_decode` in place

`do_json_decode` with the buffer it really works on: numbers, strings and the names of fields are
slices of the buffer, into which `json_string_decode` writes.
-/

namespace PxcCore.Json

open Lib

/-! ## The parser over a buffer -/

/-- `detail::ParserImpl` with its pointers `ptr_` and `end_`. -/
structure BufferParser where
  ptr : ℕ
  stop : ℕ
  ptr_le : ptr ≤ stop
  status : Option String := none

/-- `JsonValue` with its slices. -/
inductive SlicedValue where
  | null
  | number (text : Span)
  | boolean (value : Bool)
  | string (text : Span)
  | array (values : List SlicedValue)
  | object (fieldValues : List (Span × SlicedValue))

namespace BufferParser

/-- What a parser sees of the buffer. -/
def view (p : BufferParser) (m : Memory) : Parser :=
  { data := readBytes m p.ptr (p.stop - p.ptr), status := p.status }

/-- The parser that has moved on until what `q` has left is still to be read. -/
def moveTo (p : BufferParser) (q : Parser) : BufferParser :=
  { p with ptr := p.stop - q.data.length, ptr_le := Nat.sub_le _ _, status := q.status }

/-- `skip(char)` -/
def skip (p : BufferParser) (m : Memory) (c : UInt8) : BufferParser := p.moveTo ((p.view m).skip c)

/-- `try_skip(char)` -/
def trySkip (p : BufferParser) (m : Memory) (c : UInt8) : Option BufferParser :=
  ((p.view m).trySkip c).map p.moveTo

/-- `try_skip(Slice)` -/
def trySkipSlice (p : BufferParser) (m : Memory) (pre : List UInt8) : Option BufferParser :=
  ((p.view m).trySkipSlice pre).map p.moveTo

/-- `skip_whitespaces` -/
def skipWhitespaces (p : BufferParser) (m : Memory) : BufferParser :=
  p.moveTo (p.view m).skipWhitespaces

/-- `read_while` -/
def readWhile (f : UInt8 → Bool) (p : BufferParser) (m : Memory) : Span × BufferParser :=
  let q := p.moveTo ((p.view m).readWhile f).2
  (⟨p.ptr, q.ptr - p.ptr⟩, q)

/-- `advance`, whose `CHECK` keeps the parser in the buffer. -/
def advance (p : BufferParser) (diff : ℕ) : BufferParser :=
  { p with ptr := min (p.ptr + diff) p.stop, ptr_le := min_le_right _ _ }

/-- `peek_char` -/
def peekChar (p : BufferParser) (m : Memory) : UInt8 := (p.view m).peekChar

/-- `empty` -/
def empty (p : BufferParser) : Bool := p.ptr = p.stop

end BufferParser

/-! ## Decoding -/

/-- The result of a function that also writes into the buffer. -/
abbrev InBuffer (α : Type) := Memory × Except Failure (α × BufferParser)

/-- `json_string_decode` -/
def jsonStringDecodeInPlace (m : Memory) (p : BufferParser) : InBuffer Span :=
  match p.trySkip m quote with
  | none => (m, .error (.status "Opening '\"' expected"))
  | some p =>
    let final := stringDecoder.loop p.stop ⟨m, p.ptr, p.ptr⟩
    match final.2 with
    | .error e => (final.1.memory, .error e)
    | .ok () =>
      (final.1.memory, .ok (⟨p.ptr, final.1.dest - p.ptr⟩,
        p.advance (final.1.src + 1 - p.ptr)))

/-- The loop over the elements of an array. -/
def jsonArrayDecodeInPlace (elem : Memory → BufferParser → InBuffer SlicedValue) :
    ℕ → Memory → BufferParser → List SlicedValue → InBuffer SlicedValue
  | 0, m, _, _ => (m, .error .fuel)
  | n + 1, m, p, res =>
    if p.empty then (m, .error (.status "Unexpected string end"))
    else
      match elem m p with
      | (m, .error e) => (m, .error e)
      | (m, .ok (value, p)) =>
        let res := res ++ [value]
        let p := p.skipWhitespaces m
        match p.trySkip m (chr ']') with
        | some p => (m, .ok (.array res, p))
        | none =>
          match p.trySkip m (chr ',') with
          | some p => jsonArrayDecodeInPlace elem n m (p.skipWhitespaces m) res
          | none =>
            if p.empty then (m, .error (.status "Unexpected string end"))
            else (m, .error (.status "Unexpected symbol while parsing JSON Array"))

/-- The loop over the fields of an object. -/
def jsonObjectDecodeInPlace (elem : Memory → BufferParser → InBuffer SlicedValue) :
    ℕ → Memory → BufferParser → List (Span × SlicedValue) → InBuffer SlicedValue
  | 0, m, _, _ => (m, .error .fuel)
  | n + 1, m, p, fieldValues =>
    if p.empty then (m, .error (.status "Unexpected string end"))
    else
      match jsonStringDecodeInPlace m p with
      | (m, .error e) => (m, .error e)
      | (m, .ok (field, p)) =>
        match (p.skipWhitespaces m).trySkip m (chr ':') with
        | none => (m, .error (.status "':' expected"))
        | some p =>
          match elem m p with
          | (m, .error e) => (m, .error e)
          | (m, .ok (value, p)) =>
            let fieldValues := fieldValues ++ [(field, value)]
            let p := p.skipWhitespaces m
            match p.trySkip m (chr '}') with
            | some p => (m, .ok (.object fieldValues, p))
            | none =>
              match p.trySkip m (chr ',') with
              | some p => jsonObjectDecodeInPlace elem n m (p.skipWhitespaces m) fieldValues
              | none =>
                if p.empty then (m, .error (.status "Unexpected string end"))
                else (m, .error (.status "Unexpected symbol while parsing JSON Object"))

/-- The `switch` of `do_json_decode`. -/
def jsonValueDecodeInPlace (elem : Memory → BufferParser → InBuffer SlicedValue) (m : Memory)
    (p : BufferParser) : InBuffer SlicedValue :=
  let c := p.peekChar m
  if c = chr 'f' then
    match p.trySkipSlice m (['f', 'a', 'l', 's', 'e'].map chr) with
    | some p => (m, .ok (.boolean false, p))
    | none => (m, .error (.status "Token starts with 'f' -- false expected"))
  else if c = chr 't' then
    match p.trySkipSlice m (['t', 'r', 'u', 'e'].map chr) with
    | some p => (m, .ok (.boolean true, p))
    | none => (m, .error (.status "Token starts with 't' -- true expected"))
  else if c = chr 'n' then
    match p.trySkipSlice m (['n', 'u', 'l', 'l'].map chr) with
    | some p => (m, .ok (.null, p))
    | none => (m, .error (.status "Token starts with 'n' -- null expected"))
  else if c = quote then
    match jsonStringDecodeInPlace m p with
    | (m, .error e) => (m, .error e)
    | (m, .ok (slice, p)) => (m, .ok (.string slice, p))
  else if c = chr '[' then
    let p := (p.skip m (chr '[')).skipWhitespaces m
    match p.trySkip m (chr ']') with
    | some p => (m, .ok (.array [], p))
    | none => jsonArrayDecodeInPlace elem (p.stop - p.ptr + 1) m p []
  else if c = chr '{' then
    let p := (p.skip m (chr '{')).skipWhitespaces m
    match p.trySkip m (chr '}') with
    | some p => (m, .ok (.object [], p))
    | none => jsonObjectDecodeInPlace elem (p.stop - p.ptr + 1) m p []
  else if isNumberStart c then
    let (num, p) := p.readWhile isNumberChar m
    (m, .ok (.number num, p))
  else if c = 0 then (m, .error (.status "Unexpected string end"))
  else (m, .error (.status (unexpectedSymbol c)))

/-- `do_json_decode`, by recursion on the number of levels left. -/
def jsonDecodeLevelsInPlace : ℕ → Memory → BufferParser → InBuffer SlicedValue
  | 0, m, _ => (m, .error (.status "Too big object depth"))
  | n + 1, m, p => jsonValueDecodeInPlace (jsonDecodeLevelsInPlace n) m (p.skipWhitespaces m)

/-- `do_json_decode` -/
def doJsonDecodeInPlace (m : Memory) (p : BufferParser) (maxDepth : Int) : InBuffer SlicedValue :=
  jsonDecodeLevelsInPlace (maxDepth + 1).toNat m p

/-! ## What slices show -/

/-- The bytes of a slice. -/
def readSlice (m : Memory) (s : Span) : List UInt8 := s.bytes m

mutual

/-- The value that the slices of a value show. -/
def SlicedValue.read (m : Memory) : SlicedValue → JsonValue
  | .null => .null
  | .number text => .number (readSlice m text)
  | .boolean value => .boolean value
  | .string text => .string (readSlice m text)
  | .array values => .array (readValues m values)
  | .object fieldValues => .object (readFields m fieldValues)

def readValues (m : Memory) : List SlicedValue → List JsonValue
  | [] => []
  | value :: values => value.read m :: readValues m values

def readFields (m : Memory) : List (Span × SlicedValue) → List (List UInt8 × JsonValue)
  | [] => []
  | (field, value) :: fieldValues => (readSlice m field, value.read m) :: readFields m fieldValues

end

theorem readValues_append (m : Memory) (values values' : List SlicedValue) :
    readValues m (values ++ values') = readValues m values ++ readValues m values' := by
  induction values with
  | nil => rfl
  | cons value values ih => rw [List.cons_append, readValues, readValues, ih, List.cons_append]

theorem readFields_append (m : Memory) (fields fields' : List (Span × SlicedValue)) :
    readFields m (fields ++ fields') = readFields m fields ++ readFields m fields' := by
  induction fields with
  | nil => rfl
  | cons field fields ih =>
    rw [List.cons_append, readFields, readFields, ih, List.cons_append]

/-! ## Moving on -/

namespace BufferParser

variable {p q r : BufferParser} {m m' m'' : Memory} {c : UInt8}

/-- A parser has moved on, and nothing was written outside of what it has passed. -/
structure Advanced (m : Memory) (p : BufferParser) (m' : Memory) (q : BufferParser) : Prop where
  ptr_le : p.ptr ≤ q.ptr
  stop_eq : q.stop = p.stop
  outside : ∀ x, x < p.ptr ∨ q.ptr ≤ x → m' x = m x

theorem Advanced.refl (m : Memory) (p : BufferParser) : Advanced m p m p where
  ptr_le := le_rfl
  stop_eq := rfl
  outside _ _ := rfl

theorem Advanced.trans (h : Advanced m p m' q) (h' : Advanced m' q m'' r) :
    Advanced m p m'' r where
  ptr_le := h.ptr_le.trans h'.ptr_le
  stop_eq := h'.stop_eq.trans h.stop_eq
  outside x hx := by
    have hp := h.ptr_le
    have hq := h'.ptr_le
    rw [h'.outside x (by omega), h.outside x (by omega)]

theorem moveTo_of_append {s : Parser} {pre : List UInt8} (h : pre ++ s.data = (p.view m).data) :
    (p.moveTo s).view m = s ∧ readBytes m p.ptr pre.length = pre ∧
      (p.moveTo s).ptr = p.ptr + pre.length := by
  have hlength := congrArg List.length h
  have hle := p.ptr_le
  rw [List.length_append, view, length_readBytes] at hlength
  have hptr : (p.moveTo s).ptr = p.ptr + pre.length := by
    change p.stop - s.data.length = _
    omega
  refine ⟨?_, ?_, hptr⟩
  · have hrest : (p.view m).data.drop pre.length = s.data := by
      rw [← h, List.drop_left]
    rw [view, drop_readBytes _ _ (by omega)] at hrest
    rw [view, hptr]
    change Parser.mk (readBytes m _ (p.stop - _)) s.status = s
    rw [Nat.sub_add_eq, hrest]
  · have htake : (p.view m).data.take pre.length = pre := by
      rw [← h, List.take_left]
    rwa [view, take_readBytes _ _ (by omega)] at htake

/-- A parser that has only moved on sees what was left behind. -/
theorem moveTo_spec {s : Parser} (h : s.data <:+ (p.view m).data) :
    (p.moveTo s).view m = s ∧ Advanced m p m (p.moveTo s) := by
  obtain ⟨pre, hpre⟩ := h
  obtain ⟨hview, -, hptr⟩ := moveTo_of_append hpre
  refine ⟨hview, ?_, rfl, fun _ _ ↦ rfl⟩
  rw [hptr]
  exact Nat.le_add_right _ _

theorem map_moveTo_spec {o : Option Parser} (h : ∀ s, o = some s → s.data <:+ (p.view m).data) :
    o = (o.map p.moveTo).map (·.view m) ∧ ∀ q, o.map p.moveTo = some q → Advanced m p m q := by
  cases o with
  | none => exact ⟨rfl, fun q hq ↦ by cases hq⟩
  | some s =>
    obtain ⟨hview, hadvanced⟩ := moveTo_spec (h s rfl)
    refine ⟨congrArg some hview.symm, fun q hq ↦ ?_⟩
    cases hq
    exact hadvanced

theorem skip_spec (p : BufferParser) (m : Memory) (c : UInt8) :
    (p.skip m c).view m = (p.view m).skip c ∧ Advanced m p m (p.skip m c) := by
  apply moveTo_spec
  rw [Parser.skip]
  split_ifs
  · exact List.suffix_rfl
  · exact List.tail_suffix _
  · exact List.suffix_rfl

theorem skipWhitespaces_spec (p : BufferParser) (m : Memory) :
    (p.skipWhitespaces m).view m = (p.view m).skipWhitespaces ∧
      Advanced m p m (p.skipWhitespaces m) :=
  moveTo_spec (List.dropWhile_suffix _)

theorem trySkip_spec (p : BufferParser) (m : Memory) (c : UInt8) :
    (p.view m).trySkip c = (p.trySkip m c).map (·.view m) ∧
      ∀ q, p.trySkip m c = some q → Advanced m p m q := by
  apply map_moveTo_spec
  intro s hs
  rw [Parser.trySkip] at hs
  split_ifs at hs
  cases hs
  exact List.tail_suffix _

theorem trySkipSlice_spec (p : BufferParser) (m : Memory) (pre : List UInt8) :
    (p.view m).trySkipSlice pre = (p.trySkipSlice m pre).map (·.view m) ∧
      ∀ q, p.trySkipSlice m pre = some q → Advanced m p m q := by
  apply map_moveTo_spec
  intro s hs
  rw [Parser.trySkipSlice] at hs
  split_ifs at hs
  cases hs
  exact List.drop_suffix _ _

theorem readWhile_spec (f : UInt8 → Bool) (p : BufferParser) (m : Memory) :
    (p.view m).readWhile f = ((p.readWhile f m).1.bytes m, (p.readWhile f m).2.view m) ∧
      (p.readWhile f m).1.stop = (p.readWhile f m).2.ptr ∧ Advanced m p m (p.readWhile f m).2 := by
  have happend : (p.view m).data.takeWhile f ++ ((p.view m).readWhile f).2.data = (p.view m).data :=
    List.takeWhile_append_dropWhile
  obtain ⟨hview, hread, hptr⟩ := moveTo_of_append happend
  have hadvanced := (moveTo_spec ⟨_, happend⟩).2
  refine ⟨?_, Nat.add_sub_cancel' hadvanced.ptr_le, hadvanced⟩
  apply Prod.ext
  · change _ = readBytes m p.ptr ((p.moveTo ((p.view m).readWhile f).2).ptr - p.ptr)
    rw [hptr, Nat.add_sub_cancel_left, hread]
    rfl
  · exact hview.symm

theorem empty_eq (p : BufferParser) (m : Memory) : (p.view m).empty = p.empty := by
  have hle := p.ptr_le
  rw [Parser.empty, view, empty]
  cases h : p.stop - p.ptr with
  | zero =>
    have heq : p.ptr = p.stop := by omega
    rw [decide_eq_true heq]
    rfl
  | succ n =>
    have hne : p.ptr ≠ p.stop := by omega
    rw [decide_eq_false hne]
    rfl

end BufferParser

/-! ## In place and on a copy -/

open BufferParser

variable {α β : Type} {read : Memory → β → α} {m m' : Memory} {p q : BufferParser} {b : β}
  {r : InBuffer β} {f : Except Failure (α × Parser)}

/-- A value that is read from the bytes before an address. -/
def Settled (read : Memory → β → α) (b : β) (a : ℕ) : Prop :=
  ∀ m m' : Memory, (∀ x < a, m x = m' x) → read m b = read m' b

theorem Settled.mono {a a' : ℕ} (h : Settled read b a) (hle : a ≤ a') : Settled read b a' :=
  fun m m' hm ↦ h m m' fun x hx ↦ hm x (hx.trans_le hle)

theorem Settled.const {x : β} (h : ∀ m m', read m x = read m' x) (a : ℕ) : Settled read x a :=
  fun m m' _ ↦ h m m'

/-- What was read stays as it is while a parser moves on behind it. -/
theorem Settled.read_eq (h : Settled read b p.ptr) (ha : Advanced m p m' q) :
    read m b = read m' b :=
  h m m' fun x hx ↦ (ha.outside x (.inl hx)).symm

theorem settled_bytes (s : Span) : Settled readSlice s s.stop :=
  fun _ _ h ↦ readBytes_congr fun x _ hx ↦ h x hx

/-- A function that decodes in place does what one does that works on a copy: it fails with the same
error, or what its slices show is the same value and what is left to be read is the same.  It writes
nothing in front of the parser, behind the buffer or over what is left to be read. -/
inductive Agrees (read : Memory → β → α) (m : Memory) (p : BufferParser) :
    InBuffer β → Except Failure (α × Parser) → Prop where
  | error {m' : Memory} (e : Failure) (h : ∀ x, x < p.ptr ∨ p.stop ≤ x → m' x = m x) :
    Agrees read m p (m', .error e) (.error e)
  | ok {m' : Memory} {b : β} {q : BufferParser} (h : Advanced m p m' q)
    (hb : Settled read b q.ptr) : Agrees read m p (m', .ok (b, q)) (.ok (read m' b, q.view m'))

theorem Agrees.unchanged (e : Failure) : Agrees read m p (m, .error e) (.error e) :=
  .error e fun _ _ ↦ rfl

theorem Agrees.after (h : Advanced m p m' q) (hr : Agrees read m' q r f) : Agrees read m p r f := by
  cases hr with
  | error e houtside =>
    refine .error e fun x hx ↦ ?_
    have hp := h.ptr_le
    have hq := q.ptr_le
    have hstop := h.stop_eq
    rw [houtside x (by omega), h.outside x (by omega)]
  | ok hq hb => exact .ok (h.trans hq) hb

theorem jsonStringDecodeInPlace_agrees (m : Memory) (p : BufferParser) :
    Agrees readSlice m p (jsonStringDecodeInPlace m p)
      (jsonStringDecode (p.view m)) := by
  obtain ⟨hview, hskip⟩ := trySkip_spec p m quote
  rw [jsonStringDecodeInPlace, jsonStringDecode, hview]
  cases hq : p.trySkip m quote with
  | none => exact .unchanged _
  | some q =>
    refine .after (hskip q hq) ?_
    have hrun := Transducer.run_unread stringDecoder
      (show Cursor.Apart q.stop ⟨m, q.ptr, q.ptr⟩ from .inl le_rfl)
    obtain ⟨hreach, hstop⟩ := Transducer.reaches_loop stringDecoder q.stop ⟨m, q.ptr, q.ptr⟩
    have hbetween := hreach.between (.inl le_rfl)
    have hsrc := hreach.src_le q.ptr_le
    have hdest := hreach.dest_le_src le_rfl
    have hunread : Cursor.unread ⟨m, q.ptr, q.ptr⟩ q.stop = (q.view m).data := rfl
    simp only [Option.map_some]
    rw [jsonStringDecodeLoop_eq_run, ← hunread, hrun]
    generalize stringDecoder.loop q.stop ⟨m, q.ptr, q.ptr⟩ = final at *
    obtain ⟨c, result⟩ := final
    cases result with
    | error e =>
      refine .error e fun x hx ↦ hbetween.outside x ?_
      dsimp only at hsrc hdest ⊢
      omega
    | ok u =>
      obtain ⟨rest, hrest⟩ := eq_quote_of_stop hstop
      have hlength := congrArg List.length hrest
      rw [Cursor.unread, length_readBytes, List.length_cons] at hlength
      have hsrcle := hbetween.src_le
      have hdestle := hbetween.dest_le
      dsimp only at hsrc hdest hlength hsrcle hdestle
      have hptr : (q.advance (c.src + 1 - q.ptr)).ptr = c.src + 1 := by
        change min (q.ptr + (c.src + 1 - q.ptr)) q.stop = _
        omega
      have hadvanced : Advanced m q c.memory (q.advance (c.src + 1 - q.ptr)) := by
        refine ⟨by omega, rfl, fun x hx ↦ hbetween.outside x ?_⟩
        dsimp only
        omega
      have hsettled : Settled readSlice ⟨q.ptr, c.dest - q.ptr⟩
          (q.advance (c.src + 1 - q.ptr)).ptr := by
        apply (settled_bytes _).mono
        change q.ptr + (c.dest - q.ptr) ≤ _
        omega
      have hview' : (q.advance (c.src + 1 - q.ptr)).view c.memory =
          { q.view m with data := (c.unread q.stop).tail } := by
        rw [view, hptr, ← List.drop_one, Cursor.unread, drop_readBytes _ _ (by omega), Nat.sub_sub]
        rfl
      have hagrees := Agrees.ok hadvanced hsettled
      rw [hview'] at hagrees
      exact hagrees

/-! ## Values -/

theorem Settled.append_values {values : List SlicedValue} {value : SlicedValue} {a : ℕ}
    (h : Settled readValues values a) (h' : Settled SlicedValue.read value a) :
    Settled readValues (values ++ [value]) a := by
  intro m m' hm
  rw [readValues_append, readValues_append, h m m' hm, readValues, readValues, h' m m' hm]
  rfl

theorem Settled.append_fields {fields : List (Span × SlicedValue)} {field : Span}
    {value : SlicedValue} {a : ℕ} (h : Settled readFields fields a)
    (hfield : Settled readSlice field a)
    (h' : Settled SlicedValue.read value a) :
    Settled readFields (fields ++ [(field, value)]) a := by
  intro m m' hm
  rw [readFields_append, readFields_append, h m m' hm, readFields, readFields, h' m m' hm,
    hfield m m' hm]
  rfl

theorem Settled.array {values : List SlicedValue} {a : ℕ} (h : Settled readValues values a) :
    Settled SlicedValue.read (.array values) a := by
  intro m m' hm
  rw [SlicedValue.read, SlicedValue.read, h m m' hm]

theorem Settled.object {fields : List (Span × SlicedValue)} {a : ℕ}
    (h : Settled readFields fields a) : Settled SlicedValue.read (.object fields) a := by
  intro m m' hm
  rw [SlicedValue.read, SlicedValue.read, h m m' hm]

theorem Settled.string {text : Span} {a : ℕ}
    (h : Settled readSlice text a) :
    Settled SlicedValue.read (.string text) a := by
  intro m m' hm
  rw [SlicedValue.read, SlicedValue.read, h m m' hm]

theorem Settled.number {text : Span} {a : ℕ}
    (h : Settled readSlice text a) :
    Settled SlicedValue.read (.number text) a := by
  intro m m' hm
  rw [SlicedValue.read, SlicedValue.read, h m m' hm]

variable {elem' : Memory → BufferParser → InBuffer SlicedValue}
  {elem : Parser → Except Failure (JsonValue × Parser)}

theorem jsonArrayDecodeInPlace_agrees
    (he : ∀ m p, Agrees SlicedValue.read m p (elem' m p) (elem (p.view m))) (n : ℕ) (m : Memory)
    (p : BufferParser) {res : List SlicedValue} (hres : Settled readValues res p.ptr) :
    Agrees SlicedValue.read m p (jsonArrayDecodeInPlace elem' n m p res)
      (jsonArrayDecode elem n (p.view m) (readValues m res)) := by
  induction n generalizing m p res with
  | zero => exact .unchanged _
  | succ n ih =>
    rw [jsonArrayDecodeInPlace, jsonArrayDecode, empty_eq]
    split_ifs
    · exact .unchanged _
    have hvalue := he m p
    generalize elem' m p = r at hvalue ⊢
    generalize elem (p.view m) = f at hvalue ⊢
    cases hvalue with
    | error e h => exact .error e h
    | ok hq hb =>
      rename_i m' b q
      obtain ⟨hw, hskip⟩ := skipWhitespaces_spec q m'
      have hadvanced := hq.trans hskip
      have hres' : Settled readValues (res ++ [b]) (q.skipWhitespaces m').ptr :=
        (hres.mono hadvanced.ptr_le).append_values (hb.mono hskip.ptr_le)
      have hread : readValues m res ++ [b.read m'] = readValues m' (res ++ [b]) := by
        rw [readValues_append, hres.read_eq hadvanced]
        rfl
      dsimp only
      rw [← hw, hread]
      refine .after hadvanced ?_
      generalize q.skipWhitespaces m' = q at *
      obtain ⟨hclose, hclosed⟩ := trySkip_spec q m' (chr ']')
      rw [hclose]
      cases hs : q.trySkip m' (chr ']') with
      | some s => exact .ok (hclosed s hs) (hres'.mono (hclosed s hs).ptr_le).array
      | none =>
        obtain ⟨hcomma, hnext⟩ := trySkip_spec q m' (chr ',')
        simp only [Option.map_none]
        rw [hcomma]
        cases ht : q.trySkip m' (chr ',') with
        | some t =>
          obtain ⟨hw, hskip⟩ := skipWhitespaces_spec t m'
          have hadvanced := (hnext t ht).trans hskip
          simp only [Option.map_some]
          rw [← hw]
          exact (ih m' _ (hres'.mono hadvanced.ptr_le)).after hadvanced
        | none =>
          simp only [Option.map_none]
          rw [empty_eq]
          split_ifs
          · exact .unchanged _
          · exact .unchanged _

theorem jsonObjectDecodeInPlace_agrees
    (he : ∀ m p, Agrees SlicedValue.read m p (elem' m p) (elem (p.view m))) (n : ℕ) (m : Memory)
    (p : BufferParser) {fields : List (Span × SlicedValue)}
    (hfields : Settled readFields fields p.ptr) :
    Agrees SlicedValue.read m p (jsonObjectDecodeInPlace elem' n m p fields)
      (jsonObjectDecode elem n (p.view m) (readFields m fields)) := by
  induction n generalizing m p fields with
  | zero => exact .unchanged _
  | succ n ih =>
    rw [jsonObjectDecodeInPlace, jsonObjectDecode, empty_eq]
    split_ifs
    · exact .unchanged _
    have hstring := jsonStringDecodeInPlace_agrees m p
    generalize jsonStringDecodeInPlace m p = r at hstring ⊢
    generalize jsonStringDecode (p.view m) = f at hstring ⊢
    cases hstring with
    | error e h => exact .error e h
    | ok hq hfield =>
      rename_i m' field q
      have hold := hfields.read_eq hq
      have hfields := hfields.mono hq.ptr_le
      obtain ⟨hw, hskip⟩ := skipWhitespaces_spec q m'
      dsimp only
      rw [← hw]
      refine .after (hq.trans hskip) ?_
      obtain ⟨hcolon, hvalue⟩ := trySkip_spec (q.skipWhitespaces m') m' (chr ':')
      rw [hcolon]
      cases hs : (q.skipWhitespaces m').trySkip m' (chr ':') with
      | none => exact .unchanged _
      | some s =>
        have hcolon := hskip.trans (hvalue s hs)
        refine .after (hvalue s hs) ?_
        simp only [Option.map_some]
        have hvalue := he m' s
        generalize elem' m' s = r at hvalue ⊢
        generalize elem (s.view m') = f at hvalue ⊢
        cases hvalue with
        | error e h => exact .error e h
        | ok ht hb =>
          rename_i m'' b t
          obtain ⟨hw, hskip⟩ := skipWhitespaces_spec t m''
          have hadvanced := ht.trans hskip
          have hpast := hcolon.trans hadvanced
          have hfields' : Settled readFields (fields ++ [(field, b)]) (t.skipWhitespaces m'').ptr :=
            (hfields.mono hpast.ptr_le).append_fields (hfield.mono hpast.ptr_le)
              (hb.mono hskip.ptr_le)
          have hread : readFields m fields ++ [(readSlice m' field, b.read m'')] =
              readFields m'' (fields ++ [(field, b)]) := by
            have hname : readSlice m' field = readSlice m'' field := hfield.read_eq hpast
            rw [readFields_append, hold, hfields.read_eq hpast, hname]
            rfl
          dsimp only
          rw [← hw, hread]
          refine .after hadvanced ?_
          generalize t.skipWhitespaces m'' = t at *
          obtain ⟨hclose, hclosed⟩ := trySkip_spec t m'' (chr '}')
          rw [hclose]
          cases hu : t.trySkip m'' (chr '}') with
          | some u => exact .ok (hclosed u hu) (hfields'.mono (hclosed u hu).ptr_le).object
          | none =>
            obtain ⟨hcomma, hnext⟩ := trySkip_spec t m'' (chr ',')
            simp only [Option.map_none]
            rw [hcomma]
            cases hu : t.trySkip m'' (chr ',') with
            | some u =>
              obtain ⟨hw, hskip⟩ := skipWhitespaces_spec u m''
              have hadvanced := (hnext u hu).trans hskip
              simp only [Option.map_some]
              rw [← hw]
              exact (ih m'' _ (hfields'.mono hadvanced.ptr_le)).after hadvanced
            | none =>
              simp only [Option.map_none]
              rw [empty_eq]
              split_ifs
              · exact .unchanged _
              · exact .unchanged _

/-- A token that is skipped as a whole. -/
theorem Agrees.skipped {value : SlicedValue} {v : JsonValue} (h : Advanced m p m q)
    (hv : ∀ m, value.read m = v) :
    Agrees SlicedValue.read m p (m, .ok (value, q)) (.ok (v, q.view m)) := by
  rw [← hv m]
  exact .ok h (.const (fun m m' ↦ by rw [hv, hv]) _)

theorem jsonValueDecodeInPlace_agrees
    (he : ∀ m p, Agrees SlicedValue.read m p (elem' m p) (elem (p.view m))) (m : Memory)
    (p : BufferParser) : Agrees SlicedValue.read m p (jsonValueDecodeInPlace elem' m p)
      (jsonValueDecode elem (p.view m)) := by
  rw [jsonValueDecodeInPlace, jsonValueDecode, peekChar]
  dsimp only
  split_ifs
  · obtain ⟨hskip, hskipped⟩ := trySkipSlice_spec p m (['f', 'a', 'l', 's', 'e'].map chr)
    rw [hskip]
    cases hq : p.trySkipSlice m (['f', 'a', 'l', 's', 'e'].map chr) with
    | none => exact .unchanged _
    | some q => exact .skipped (hskipped q hq) fun _ ↦ rfl
  · obtain ⟨hskip, hskipped⟩ := trySkipSlice_spec p m (['t', 'r', 'u', 'e'].map chr)
    rw [hskip]
    cases hq : p.trySkipSlice m (['t', 'r', 'u', 'e'].map chr) with
    | none => exact .unchanged _
    | some q => exact .skipped (hskipped q hq) fun _ ↦ rfl
  · obtain ⟨hskip, hskipped⟩ := trySkipSlice_spec p m (['n', 'u', 'l', 'l'].map chr)
    rw [hskip]
    cases hq : p.trySkipSlice m (['n', 'u', 'l', 'l'].map chr) with
    | none => exact .unchanged _
    | some q => exact .skipped (hskipped q hq) fun _ ↦ rfl
  · have hstring := jsonStringDecodeInPlace_agrees m p
    generalize jsonStringDecodeInPlace m p = r at hstring ⊢
    generalize jsonStringDecode (p.view m) = f at hstring ⊢
    cases hstring with
    | error e h => exact .error e h
    | ok hq hb => exact .ok hq hb.string
  · obtain ⟨hopen, hopened⟩ := skip_spec p m (chr '[')
    obtain ⟨hw, hskip⟩ := skipWhitespaces_spec (p.skip m (chr '[')) m
    rw [← hopen, ← hw]
    refine .after (hopened.trans hskip) ?_
    generalize (p.skip m (chr '[')).skipWhitespaces m = q
    obtain ⟨hclose, hclosed⟩ := trySkip_spec q m (chr ']')
    rw [hclose]
    cases hr : q.trySkip m (chr ']') with
    | some r => exact .skipped (hclosed r hr) fun _ ↦ rfl
    | none =>
      simp only [Option.map_none, view, length_readBytes]
      exact jsonArrayDecodeInPlace_agrees he _ m q (.const (fun _ _ ↦ rfl) _)
  · obtain ⟨hopen, hopened⟩ := skip_spec p m (chr '{')
    obtain ⟨hw, hskip⟩ := skipWhitespaces_spec (p.skip m (chr '{')) m
    rw [← hopen, ← hw]
    refine .after (hopened.trans hskip) ?_
    generalize (p.skip m (chr '{')).skipWhitespaces m = q
    obtain ⟨hclose, hclosed⟩ := trySkip_spec q m (chr '}')
    rw [hclose]
    cases hr : q.trySkip m (chr '}') with
    | some r => exact .skipped (hclosed r hr) fun _ ↦ rfl
    | none =>
      simp only [Option.map_none, view, length_readBytes]
      exact jsonObjectDecodeInPlace_agrees he _ m q (.const (fun _ _ ↦ rfl) _)
  · obtain ⟨hread, hstop, hadvanced⟩ := readWhile_spec isNumberChar p m
    rw [hread]
    exact .ok hadvanced ((settled_bytes _).mono hstop.le).number
  · exact .unchanged _
  · exact .unchanged _

theorem jsonDecodeLevelsInPlace_agrees (n : ℕ) (m : Memory) (p : BufferParser) :
    Agrees SlicedValue.read m p (jsonDecodeLevelsInPlace n m p)
      (jsonDecodeLevels n (p.view m)) := by
  induction n generalizing m p with
  | zero => exact .unchanged _
  | succ n ih =>
    obtain ⟨hw, hskip⟩ := skipWhitespaces_spec p m
    rw [jsonDecodeLevelsInPlace, jsonDecodeLevels, ← hw]
    exact (jsonValueDecodeInPlace_agrees ih m _).after hskip

/-- At every step of `json_string_decode` the write position is not past the read position, what is
still to be read is as it was, and only bytes of the literal that were read are written.  Therefore
it and a `do_json_decode` around it do on their buffer what they do on a separate copy. -/
theorem decode_in_place (m : Memory) (p : BufferParser) :
    (∀ c, stringDecoder.Reaches p.stop ⟨m, p.ptr, p.ptr⟩ c →
      c.dest ≤ c.src ∧ c.src ≤ p.stop ∧ c.unread p.stop = (p.view m).data.drop (c.src - p.ptr) ∧
        ∀ x, x < p.ptr ∨ c.dest ≤ x → c.memory x = m x) ∧
    Agrees readSlice m p (jsonStringDecodeInPlace m p) (jsonStringDecode (p.view m)) ∧
    ∀ maxDepth, Agrees SlicedValue.read m p (doJsonDecodeInPlace m p maxDepth)
      (doJsonDecode (p.view m) maxDepth) := by
  refine ⟨fun c hc ↦ ?_, jsonStringDecodeInPlace_agrees m p,
    fun maxDepth ↦ jsonDecodeLevelsInPlace_agrees _ m p⟩
  have hbetween := hc.between (.inl le_rfl)
  exact ⟨hc.dest_le_src le_rfl, hc.src_le p.ptr_le, hbetween.unread_eq, hbetween.outside⟩

/-- An escaped line break becomes one byte, and the quote behind it stays. -/
theorem decode_in_place_line_break :
    writeBytes (.ofList [backslash, chr 'n', quote]) 0 [0x0a] 2 = quote :=
  ((decode_in_place (.ofList [backslash, chr 'n', quote]) ⟨0, 3, by decide, none⟩).1
    (Cursor.move ⟨.ofList [backslash, chr 'n', quote], 0, 0⟩ 2 [0x0a])
    (.single (.next rfl))).2.2.2 2 (.inr (by decide))

end PxcCore.Json
