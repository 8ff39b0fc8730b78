import PxcCore.Lib.InPlace
import PxcCore.Utils.Json.Decode

/-!
# `json_string_decode` in place

The decoder of strings writes the text it decodes over the text it reads.  Its loop is a transducer:
`jsonStringDecodeLoop` is its run on a separate copy, and the run over its own input gives the same.
-/

namespace PxcCore.Json

open Lib

/-! ## The body of the loop -/

/-- The test for one half of a surrogate pair. -/
def isSurrogateHalf (num : ℕ) : Bool := 0xD7FF < num ∧ num < 0xE000

/-- The escape sequence behind `\u`, from its first digit on, which may be the first half of a
pair. -/
def unicodeEscapeStep : List UInt8 → Move (Except Failure Unit)
  | h0 :: h1 :: h2 :: h3 :: src =>
    match hexNum h0 h1 h2 h3 with
    | none => .stop (.error (.status "Invalid \\u -- not hex digit"))
    | some num =>
      if isSurrogateHalf num then
        match src with
        | b0 :: b1 :: l0 :: l1 :: l2 :: l3 :: _ =>
          if b0 = backslash ∧ b1 = chr 'u' then
            match hexNum l0 l1 l2 l3 with
            | none => .stop (.error (.status "Invalid \\u -- not hex digit"))
            | some newNum =>
              if isSurrogateHalf newNum then
                .next 12 (Utf8.appendUtf8CharacterUnsafe
                  ((((num &&& 0x3FF) <<< 10) ||| (newNum &&& 0x3FF)) + 0x10000))
              else .next 6 (Utf8.appendUtf8CharacterUnsafe num)
          else .next 6 (Utf8.appendUtf8CharacterUnsafe num)
        | _src => .next 6 (Utf8.appendUtf8CharacterUnsafe num)
      else .next 6 (Utf8.appendUtf8CharacterUnsafe num)
  | _ => .stop (.error (.status "\\u has less than 4 symbols"))

/-- The body of the loop of `json_string_decode`, given what lies between `cur_src` and `end`: how
far `cur_src` moves and what is written at `cur_dest`. -/
def stringStep : List UInt8 → Move (Except Failure Unit)
  | [] => .stop (.error (.status "Closing '\"' not found"))
  | c :: src =>
    if c = quote then .stop (.ok ())
    else if c = backslash then
      match src with
      | [] => .stop (.error (.status "Closing '\"' not found"))
      | e :: src =>
        if e = chr 'b' then .next 2 [0x08]
        else if e = chr 'f' then .next 2 [0x0c]
        else if e = chr 'n' then .next 2 [0x0a]
        else if e = chr 'r' then .next 2 [0x0d]
        else if e = chr 't' then .next 2 [0x09]
        else if e = chr 'u' then unicodeEscapeStep src
        else .next 2 [e]
    else .next 1 [c]

/-- An escape of six bytes becomes at most four, one of twelve as well. -/
theorem unicodeEscapeStep_next {src out : List UInt8} {k : ℕ}
    (h : unicodeEscapeStep src = .next k out) :
    0 < k ∧ k ≤ src.length + 2 ∧ out.length ≤ k := by
  revert h
  fun_cases unicodeEscapeStep src
  all_goals
    intro h
    cases h
  all_goals
    refine ⟨by omega, ?_, (Utf8.append_length_le_four _).trans (by omega)⟩
    simp only [List.length_cons]
    omega

/-- No round of the loop writes more than it has read. -/
theorem stringStep_next {src out : List UInt8} {k : ℕ} (h : stringStep src = .next k out) :
    0 < k ∧ k ≤ src.length ∧ out.length ≤ k := by
  revert h
  fun_cases stringStep src
  case case9 =>
    intro h
    exact unicodeEscapeStep_next h
  all_goals
    intro h
    cases h
  all_goals
    refine ⟨by omega, ?_, by simp⟩
    simp only [List.length_cons]
    omega

/-- The loop of `json_string_decode`. -/
def stringDecoder : Transducer (Except Failure Unit) where
  step := stringStep
  pos_of_next h := (stringStep_next h).1
  le_of_next h := (stringStep_next h).2.1
  length_of_next h := (stringStep_next h).2.2

theorem unicodeEscapeStep_ne_stop_ok (src : List UInt8) :
    unicodeEscapeStep src ≠ .stop (.ok ()) := by
  fun_cases unicodeEscapeStep src
  all_goals
    intro h
    cases h

/-- The loop stops without an error at a quote alone. -/
theorem eq_quote_of_stop {src : List UInt8} (h : stringStep src = .stop (.ok ())) :
    ∃ rest, src = quote :: rest := by
  revert h
  fun_cases stringStep src
  case case2 rest => exact fun _ ↦ ⟨rest, rfl⟩
  case case9 => exact fun h ↦ absurd h (unicodeEscapeStep_ne_stop_ok _)
  all_goals
    intro h
    cases h

/-! ## The run on a separate copy -/

variable {src dest out : List UInt8} {k : ℕ} {result : Except Failure Unit}

theorem jsonStringDecodeLoop_of_escape_stop (h : unicodeEscapeStep src = .stop result) :
    jsonStringDecodeLoop (backslash :: chr 'u' :: src) dest =
      result.map fun _ ↦ (dest, chr 'u' :: src) := by
  revert h
  fun_cases unicodeEscapeStep src
  all_goals
    intro h
    cases h
  all_goals
    rw [jsonStringDecodeLoop.eq_def]
    simp_all +decide [Except.map, isSurrogateHalf]

theorem jsonStringDecodeLoop_of_stop (h : stringStep src = .stop result) :
    jsonStringDecodeLoop src dest = result.map fun _ ↦ (dest, src.tail) := by
  revert h
  fun_cases stringStep src
  case case9 => exact jsonStringDecodeLoop_of_escape_stop
  all_goals
    intro h
    cases h
  all_goals
    rw [jsonStringDecodeLoop.eq_def]
    simp_all +decide [Except.map]

theorem jsonStringDecodeLoop_of_escape_next (h : unicodeEscapeStep src = .next k out) :
    jsonStringDecodeLoop (backslash :: chr 'u' :: src) dest =
      jsonStringDecodeLoop ((backslash :: chr 'u' :: src).drop k) (dest ++ out) := by
  revert h
  fun_cases unicodeEscapeStep src
  all_goals
    intro h
    cases h
  all_goals
    rw [jsonStringDecodeLoop.eq_def]
    simp_all +decide [isSurrogateHalf]

theorem jsonStringDecodeLoop_of_next (h : stringStep src = .next k out) :
    jsonStringDecodeLoop src dest = jsonStringDecodeLoop (src.drop k) (dest ++ out) := by
  revert h
  fun_cases stringStep src
  case case9 => exact jsonStringDecodeLoop_of_escape_next
  all_goals
    intro h
    cases h
  all_goals
    rw [jsonStringDecodeLoop.eq_def]
    simp_all +decide

/-- The loop on lists is the run of the transducer. -/
theorem jsonStringDecodeLoop_eq_run (src dest : List UInt8) : jsonStringDecodeLoop src dest =
    (stringDecoder.run src).result.map fun _ ↦
      (dest ++ (stringDecoder.run src).out, (stringDecoder.run src).rest.tail) := by
  induction src using Transducer.run.induct stringDecoder generalizing dest with
  | case1 src result h =>
    rw [jsonStringDecodeLoop_of_stop h, Transducer.run_of_stop h, List.append_nil]
  | case2 src k out h ih =>
    rw [jsonStringDecodeLoop_of_next h, ih, Transducer.run_of_next h, List.append_assoc]

end PxcCore.Json
