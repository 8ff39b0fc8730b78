import PxcCore.Utils.Json.Decode

/-!
# `JsonBuilder` and `JsonValue::store`

The JSON writer of `JsonBuilder.h` and `JsonBuilder.cpp`.  The `StringBuilder` is the list of bytes
written so far, which is what it holds as long as it does not run out of space.  `none` stands for
a failed `CHECK` or a reached `UNREACHABLE`.
-/

namespace PxcCore.Json

/-! ## Characters -/

/-- `"0123456789abcdef"[i]`. -/
def hexDigit (i : Nat) : UInt8 :=
  (['0', '1', '2', '3', '4', '5', '6', '7',
    '8', '9', 'a', 'b', 'c', 'd', 'e', 'f'].map chr).getD i 0

/-- `JsonOneChar`. -/
def jsonOneChar (c : Nat) : List UInt8 :=
  [backslash, chr 'u', hexDigit (c >>> 12), hexDigit ((c >>> 8) &&& 15),
    hexDigit ((c >>> 4) &&& 15),
    hexDigit (c &&& 15)]

/-- `JsonChar`: a surrogate pair above `0xFFFF`. -/
def jsonChar (c : Nat) : Option (List UInt8) :=
  if c < 0x10000 then
    if 0xD7FF < c ∧ c < 0xE000 then none else some (jsonOneChar c)
  else if c ≤ 0x10ffff then
    some (jsonOneChar (0xD7C0 + (c >>> 10)) ++ jsonOneChar (0xDC00 + (c &&& 0x3FF)))
  else none

/-- The loop of `operator<<(StringBuilder &, const JsonString &)`: the text still to be written
and what has been written. -/
def jsonStringLoop : List UInt8 → List UInt8 → Option (List UInt8)
  | [], sb => some sb
  | ch :: s, sb =>
    if ch = quote then jsonStringLoop s (sb ++ [backslash, quote])
    else if ch = backslash then jsonStringLoop s (sb ++ [backslash, backslash])
    else if ch = 0x08 then jsonStringLoop s (sb ++ [backslash, chr 'b'])
    else if ch = 0x0c then jsonStringLoop s (sb ++ [backslash, chr 'f'])
    else if ch = 0x0a then jsonStringLoop s (sb ++ [backslash, chr 'n'])
    else if ch = 0x0d then jsonStringLoop s (sb ++ [backslash, chr 'r'])
    else if ch = 0x09 then jsonStringLoop s (sb ++ [backslash, chr 't'])
    else if ch ≤ 31 then jsonStringLoop s (sb ++ jsonOneChar ch.toNat)
    else if 128 ≤ ch then
      let a := ch.toNat
      if a &&& 0x40 = 0 then none
      else
        match s with
        | [] => none
        | b :: s =>
          let b := b.toNat
          if b &&& 0xc0 ≠ 0x80 then none
          else if a &&& 0x20 = 0 then
            if a &&& 0x1e = 0 then none
            else
              match jsonChar (((a &&& 0x1f) <<< 6) ||| (b &&& 0x3f)) with
              | none => none
              | some t => jsonStringLoop s (sb ++ t)
          else
            match s with
            | [] => none
            | c :: s =>
              let c := c.toNat
              if c &&& 0xc0 ≠ 0x80 then none
              else if a &&& 0x10 = 0 then
                if (a &&& 0x0f) ||| (b &&& 0x20) = 0 then none
                else
                  match
                    jsonChar (((a &&& 0x0f) <<< 12) ||| ((b &&& 0x3f) <<< 6) ||| (c &&& 0x3f)) with
                  | none => none
                  | some t => jsonStringLoop s (sb ++ t)
              else
                match s with
                | [] => none
                | d :: s =>
                  let d := d.toNat
                  if d &&& 0xc0 ≠ 0x80 then none
                  else if a &&& 0x08 = 0 then
                    if (a &&& 0x07) ||| (b &&& 0x30) = 0 then none
                    else
                      match jsonChar (((a &&& 0x07) <<< 18) ||| ((b &&& 0x3f) <<< 12) |||
                          ((c &&& 0x3f) <<< 6) ||| (d &&& 0x3f)) with
                      | none => none
                      | some t => jsonStringLoop s (sb ++ t)
                  else none
    else jsonStringLoop s (sb ++ [ch])

/-- `operator<<(StringBuilder &, const JsonString &)`, the closing quote written on scope exit. -/
def jsonString (s sb : List UInt8) : Option (List UInt8) :=
  (jsonStringLoop s (sb ++ [quote])).map (· ++ [quote])

/-! ## Scopes -/

/-- `JsonBuilder`: the text, `offset_` (negative for compact output), and the active scope, here
the number of scopes that are open. -/
structure JsonBuilder where
  sb : List UInt8 := []
  offset : Int
  scope : Nat := 0
deriving DecidableEq, Repr

/-- `JsonScope`: the place of this scope and `save_scope_`. -/
structure JsonScope where
  self : Nat
  saveScope : Nat
deriving DecidableEq, Repr

namespace JsonBuilder

/-- `*sb_ << text`. -/
def write (jb : JsonBuilder) (text : List UInt8) : JsonBuilder := { jb with sb := jb.sb ++ text }

def isPretty (jb : JsonBuilder) : Bool := 0 ≤ jb.offset

/-- `print_offset`. -/
def printOffset (jb : JsonBuilder) : JsonBuilder :=
  if 0 ≤ jb.offset then
    jb.write (0x0a :: (List.replicate jb.offset.toNat [0x20, 0x20, 0x20]).flatten)
  else jb

/-- `dec_offset`, with `CHECK(offset_ > 0)`. -/
def decOffset (jb : JsonBuilder) : Option JsonBuilder :=
  if 0 ≤ jb.offset then
    if 0 < jb.offset then some { jb with offset := jb.offset - 1 } else none
  else some jb

/-- `inc_offset`. -/
def incOffset (jb : JsonBuilder) : JsonBuilder :=
  if 0 ≤ jb.offset then { jb with offset := jb.offset + 1 } else jb

/-- The constructor of `JsonScope`. -/
def enterScope (jb : JsonBuilder) : JsonScope × JsonBuilder :=
  (⟨jb.scope + 1, jb.scope⟩, { jb with scope := jb.scope + 1 })

/-- `JsonScope::leave`, with `CHECK(is_active())`. -/
def leaveScope (jb : JsonBuilder) (s : JsonScope) : Option JsonBuilder :=
  if jb.scope = s.self then some { jb with scope := s.saveScope } else none

end JsonBuilder

/-- The constructor of `JsonArrayScope` or `JsonObjectScope`; `bracket` is what it prints. -/
def enterBracket (bracket : UInt8) (jb : JsonBuilder) : JsonScope × JsonBuilder :=
  let (s, jb) := jb.enterScope
  (s, jb.incOffset.write [bracket])

/-- The destructor of `JsonArrayScope` or `JsonObjectScope`: `leave`, then that of `JsonScope`. -/
def leaveBracket (bracket : UInt8) (s : JsonScope) (jb : JsonBuilder) : Option JsonBuilder := do
  let jb ← jb.decOffset
  (jb.printOffset.write [bracket]).leaveScope s

/-- What both bracket scopes do before an entry: `CHECK(is_active())`, a comma unless it is the
first one, and `print_offset`. -/
def startEntry (s : JsonScope) (first : Bool) (jb : JsonBuilder) : Option JsonBuilder :=
  if jb.scope = s.self then
    some (if first then jb.printOffset else (jb.write [chr ',']).printOffset)
  else none

/-- A value scope around one plain write, `enter_value() << x`. -/
def writeValue (f : List UInt8 → Option (List UInt8)) (jb : JsonBuilder) : Option JsonBuilder := do
  let (s, jb) := jb.enterScope
  let sb ← f jb.sb
  { jb with sb := sb }.leaveScope s

mutual

/-- `enter_value() << value` for a `JsonValue`: `JsonValue::store` inside its own value scope. -/
def JsonValue.store : JsonValue → JsonBuilder → Option JsonBuilder
  | .null, jb => writeValue (fun sb ↦ some (sb ++ ['n', 'u', 'l', 'l'].map chr)) jb
  | .boolean true, jb => writeValue (fun sb ↦ some (sb ++ ['t', 'r', 'u', 'e'].map chr)) jb
  | .boolean false, jb => writeValue (fun sb ↦ some (sb ++ ['f', 'a', 'l', 's', 'e'].map chr)) jb
  | .number text, jb => writeValue (fun sb ↦ some (sb ++ text)) jb
  | .string text, jb => writeValue (jsonString text) jb
  | .array values, jb => do
    let (s, jb) := jb.enterScope
    let (arr, jb) := enterBracket (chr '[') jb
    let jb ← storeValues arr true values jb
    let jb ← leaveBracket (chr ']') arr jb
    jb.leaveScope s
  | .object fieldValues, jb => do
    let (s, jb) := jb.enterScope
    let (object, jb) := enterBracket (chr '{') jb
    let jb ← storeFields object true fieldValues jb
    let jb ← leaveBracket (chr '}') object jb
    jb.leaveScope s

/-- `arr << val` for the values of an array. -/
def storeValues (arr : JsonScope) : Bool → List JsonValue → JsonBuilder → Option JsonBuilder
  | _, [], jb => some jb
  | first, v :: values, jb => do
    let jb ← startEntry arr first jb
    let jb ← v.store jb
    storeValues arr false values jb

/-- `object(field, value)` for the fields of an object. -/
def storeFields (object : JsonScope) :
    Bool → List (List UInt8 × JsonValue) → JsonBuilder → Option JsonBuilder
  | _, [], jb => some jb
  | first, (field, v) :: fieldValues, jb => do
    let jb ← startEntry object first jb
    let jb ← writeValue (jsonString field) jb
    let jb := jb.write (if jb.isPretty then [0x20, chr ':', 0x20] else [chr ':'])
    let jb ← v.store jb
    storeFields object false fieldValues jb

end

/-- `json_encode`, with the newline that follows pretty output. -/
def jsonEncode (v : JsonValue) (pretty : Bool) : Option (List UInt8) := do
  let jb ← v.store { offset := if pretty then 0 else -1 }
  if pretty then some (jb.sb ++ [0x0a]) else some jb.sb

end PxcCore.Json
