import Mathlib

/-!
# The JSON parser's cursor

`detail::ParserImpl` of `Parser.h`, as far as the JSON functions and `parse_url` use it.  The pair
of pointers `ptr_`, `end_` is the list of bytes still to be read: the functions below only ever
move `ptr_` forward, and the in-place string decoder writes behind it.
-/

namespace PxcCore.Json

/-- The byte of an ASCII character of the source. -/
def chr (c : Char) : UInt8 := c.toUInt8

/-- A byte as `StringBuilder` prints it inside an error message. -/
def charText (c : UInt8) : String := String.singleton (Char.ofNat c.toNat)

/-- The double quote, `0x22`. -/
def quote : UInt8 := 0x22

/-- The backslash, `0x5c`. -/
def backslash : UInt8 := 0x5c

/-- How a JSON function ends when it does not succeed: with a `Status`, or, in the model only, by
running out of loop steps. -/
inductive Failure where
  | status (message : String)
  | fuel
deriving DecidableEq, Repr

/-- `detail::ParserImpl`: the unread bytes and `status_`, which is `none` while it is OK. -/
structure Parser where
  data : List UInt8
  status : Option String := none
deriving DecidableEq, Repr

namespace Parser

/-- `empty`. -/
def empty (p : Parser) : Bool := p.data.isEmpty

/-- `peek_char`: the next byte, or 0 at the end. -/
def peekChar (p : Parser) : UInt8 := p.data.headD 0

/-- `skip(char)`: does nothing once an error is set. -/
def skip (p : Parser) (c : UInt8) : Parser :=
  if p.status.isSome then p
  else if p.data.head? = some c then { p with data := p.data.tail }
  else { p with status := some ("Skip '" ++ charText c ++ "' failed") }

/-- `try_skip(char)`: the parser behind `c`, if `c` is next. -/
def trySkip (p : Parser) (c : UInt8) : Option Parser :=
  if p.data.head? = some c then some { p with data := p.data.tail } else none

/-- `try_skip(Slice)`: the parser behind `pre`, if `pre` is next. -/
def trySkipSlice (p : Parser) (pre : List UInt8) : Option Parser :=
  if pre.isPrefixOf p.data then some { p with data := p.data.drop pre.length } else none

/-- The set `" \t\r\n"` of `skip_whitespaces`. -/
def isWhitespace (c : UInt8) : Bool := c = 0x20 ∨ c = 0x09 ∨ c = 0x0d ∨ c = 0x0a

/-- `skip_whitespaces`. -/
def skipWhitespaces (p : Parser) : Parser := { p with data := p.data.dropWhile isWhitespace }

/-- `read_while`: the bytes read and the parser behind them. -/
def readWhile (f : UInt8 → Bool) (p : Parser) : List UInt8 × Parser :=
  (p.data.takeWhile f, { p with data := p.data.dropWhile f })

/-- `read_till_nofail(Slice)`: the bytes before the first one of `str`. -/
def readTillNofail (str : List UInt8) (p : Parser) : List UInt8 × Parser :=
  if p.status.isSome then ([], p)
  else (p.data.takeWhile (· ∉ str), { p with data := p.data.dropWhile (· ∉ str) })

/-! ## What each operation leaves to be read -/

theorem length_skip_le (p : Parser) (c : UInt8) : (p.skip c).data.length ≤ p.data.length := by
  unfold skip
  split_ifs <;> simp

theorem length_trySkip {p q : Parser} {c : UInt8} (h : p.trySkip c = some q) :
    q.data.length < p.data.length := by
  unfold trySkip at h
  split_ifs at h with hc
  cases h
  cases hp : p.data with
  | nil => simp [hp] at hc
  | cons b rest => simp

theorem length_trySkipSlice_le {p q : Parser} {pre : List UInt8}
    (h : p.trySkipSlice pre = some q) : q.data.length ≤ p.data.length := by
  unfold trySkipSlice at h
  split_ifs at h
  cases h
  simp

theorem length_skipWhitespaces_le (p : Parser) :
    p.skipWhitespaces.data.length ≤ p.data.length := List.length_dropWhile_le _ _

/-- What is read up to a byte that is looked for. -/
theorem readTillNofail_append {str pre : List UInt8} {c : UInt8} (hpre : ∀ c ∈ pre, c ∉ str)
    (hc : c ∈ str) (l : List UInt8) :
    (Parser.mk (pre ++ c :: l) none).readTillNofail str = (pre, ⟨c :: l, none⟩) := by
  have hpre : ∀ c ∈ pre, decide (c ∉ str) = true := fun c hmem ↦ decide_eq_true (hpre c hmem)
  have hc : ¬ decide (c ∉ str) = true := fun h ↦ of_decide_eq_true h hc
  simp only [readTillNofail, Option.isSome_none, Bool.false_eq_true, if_false]
  rw [List.takeWhile_append_of_pos hpre, List.dropWhile_append_of_pos hpre,
    List.takeWhile_cons, List.dropWhile_cons, if_neg hc, if_neg hc, List.append_nil]

/-- What is left behind an opening bracket and the whitespace after it. -/
theorem length_open_le (p : Parser) (c : UInt8) :
    (p.skip c).skipWhitespaces.data.length ≤ p.data.length :=
  (length_skipWhitespaces_le _).trans (length_skip_le p c)

theorem length_readWhile_le (f : UInt8 → Bool) (p : Parser) :
    (p.readWhile f).2.data.length ≤ p.data.length := List.length_dropWhile_le _ _

/-! ## Reading a known byte -/

@[simp] theorem peekChar_cons (c : UInt8) (l : List UInt8) (st : Option String) :
    (Parser.mk (c :: l) st).peekChar = c := rfl

@[simp] theorem skip_cons (c : UInt8) (l : List UInt8) :
    (Parser.mk (c :: l) none).skip c = ⟨l, none⟩ := by simp [skip]

@[simp] theorem trySkip_cons_self (c : UInt8) (l : List UInt8) (st : Option String) :
    (Parser.mk (c :: l) st).trySkip c = some ⟨l, st⟩ := by simp [trySkip]

theorem trySkip_cons_of_ne {c d : UInt8} (h : d ≠ c) (l : List UInt8) (st : Option String) :
    (Parser.mk (d :: l) st).trySkip c = none := by simp [trySkip, h]

theorem trySkipSlice_append (pre l : List UInt8) (st : Option String) :
    (Parser.mk (pre ++ l) st).trySkipSlice pre = some ⟨l, st⟩ := by simp [trySkipSlice]

theorem skipWhitespaces_cons_of_not {c : UInt8} (h : isWhitespace c = false) (l : List UInt8)
    (st : Option String) : (Parser.mk (c :: l) st).skipWhitespaces = ⟨c :: l, st⟩ := by
  simp [skipWhitespaces, h]

/-- Whitespace in front of the input is skipped. -/
theorem skipWhitespaces_append {w : List UInt8} (h : ∀ c ∈ w, isWhitespace c = true)
    (l : List UInt8) (st : Option String) :
    (Parser.mk (w ++ l) st).skipWhitespaces = (Parser.mk l st).skipWhitespaces := by
  simp only [skipWhitespaces, Parser.mk.injEq, and_true]
  exact List.dropWhile_append_of_pos h

end Parser

/-- `hex_to_int`: the value of a hexadecimal digit, and 16 for any other byte. -/
def hexToInt (c : UInt8) : Nat :=
  if chr '0' ≤ c ∧ c ≤ chr '9' then (c - chr '0').toNat
  else if chr 'a' ≤ (c ||| 0x20) ∧ (c ||| 0x20) ≤ chr 'f' then ((c ||| 0x20) - chr 'a' + 10).toNat
  else 16

/-- The four-digit loop behind `\u`: `none` at the first byte that is not a hexadecimal digit. -/
def hexNum (h0 h1 h2 h3 : UInt8) : Option Nat :=
  [h0, h1, h2, h3].foldlM (fun num c ↦
    if hexToInt c = 16 then none else some (num * 16 + hexToInt c)) 0

end PxcCore.Json
