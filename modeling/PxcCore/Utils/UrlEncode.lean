import PxcCore.Lib.InPlace
import PxcCore.Utils.HttpUrl

/-!
# Percent encoding

`url_encode`, `url_decode` and `url_decode_inplace` of `misc.cpp`.  The decoder is one loop over two
pieces of memory, which may be the same one.
-/

namespace PxcCore.UrlEncode

open Lib
open HttpUrl (upperHexDigit)
open Json (chr hexToInt)

/-! ## Definitions -/

/-- `is_url_char` -/
def isUrlChar (c : UInt8) : Bool := isAlnum c || c ∈ ['-', '.', '_', '~'].map chr

/-- What `url_encode` appends for one byte. -/
def encodeChar (c : UInt8) : List UInt8 :=
  if isUrlChar c then [c] else [chr '%', upperHexDigit (c / 16), upperHexDigit (c % 16)]

/-- `url_encode`, which stops if its `CHECK` fails. -/
def urlEncode (data : List UInt8) : Option (List UInt8) :=
  let length := 3 * data.length - 2 * data.countP isUrlChar
  if length = data.length then some data
  else
    let result := data.flatMap encodeChar
    if result.length = length then some result else none

/-- A byte that is not decoded. -/
def plainChar (decodePlusSignAsSpace : Bool) (c : UInt8) : UInt8 :=
  if decodePlusSignAsSpace ∧ c = chr '+' then chr ' ' else c

/-- The byte of the percent sequence that comes next, if one does. -/
def percentSequence (c : UInt8) : List UInt8 → Option UInt8
  | high :: low :: _ =>
    if c = chr '%' ∧ hexToInt high < 16 ∧ hexToInt low < 16 then
      some (UInt8.ofNat (hexToInt high * 16 + hexToInt low))
    else none
  | _ => none

/-- The body of the loop of `url_decode`, given what is not read yet. -/
def urlDecodeStep (decodePlusSignAsSpace : Bool) : List UInt8 → Move Unit
  | [] => .stop ()
  | c :: rest =>
    match percentSequence c rest with
    | some byte => .next 3 [byte]
    | none => .next 1 [plainChar decodePlusSignAsSpace c]

theorem length_of_percentSequence {c byte : UInt8} {rest : List UInt8}
    (h : percentSequence c rest = some byte) : 2 ≤ rest.length := by
  fun_cases percentSequence c rest with
  | case1 high low rest hc => exact Nat.le_add_left 2 rest.length
  | case2 high low rest hc =>
    rw [percentSequence, if_neg hc] at h
    cases h
  | case3 rest hrest =>
    rw [percentSequence.eq_2 c _ hrest] at h
    cases h

/-- A percent sequence is three bytes for one, everything else is one for one. -/
theorem urlDecodeStep_next {plus : Bool} {l : List UInt8} {k : ℕ} {out : List UInt8}
    (h : urlDecodeStep plus l = .next k out) : 0 < k ∧ k ≤ l.length ∧ out.length ≤ k := by
  cases l with
  | nil => cases h
  | cons c rest =>
    rw [urlDecodeStep] at h
    cases hbyte : percentSequence c rest with
    | none =>
      rw [hbyte] at h
      cases h
      exact ⟨Nat.one_pos, Nat.le_add_left 1 _, le_rfl⟩
    | some byte =>
      rw [hbyte] at h
      cases h
      exact ⟨Nat.succ_pos 2, Nat.succ_le_succ (length_of_percentSequence hbyte), Nat.one_le_ofNat⟩

/-- The loop of `url_decode`. -/
def urlDecoder (decodePlusSignAsSpace : Bool) : Transducer Unit where
  step := urlDecodeStep decodePlusSignAsSpace
  pos_of_next h := (urlDecodeStep_next h).1
  le_of_next h := (urlDecodeStep_next h).2.1
  length_of_next h := (urlDecodeStep_next h).2.2

theorem urlDecoder_step (plus : Bool) : (urlDecoder plus).step = urlDecodeStep plus := rfl

/-- `url_decode(Slice, MutableSlice, bool)`: the memory behind it and the number of bytes written,
unless its `CHECK` fails. -/
def urlDecodeTo (source dest : Span) (decodePlusSignAsSpace : Bool) (m : Memory) :
    Option (Memory × ℕ) :=
  if dest.size ≥ source.size then
    let start : Cursor := ⟨m, source.start, dest.start⟩
    let final := ((urlDecoder decodePlusSignAsSpace).loop source.stop start).1
    some (final.memory, final.dest - dest.start)
  else none

/-- `url_decode(Slice, bool)`, which decodes into a string of its own, here put behind the one it
reads. -/
def urlDecode (source : List UInt8) (decodePlusSignAsSpace : Bool) : Option (List UInt8) := do
  let dest : Span := ⟨source.length, source.length⟩
  let (m, size) ← urlDecodeTo ⟨0, source.length⟩ dest decodePlusSignAsSpace (.ofList source)
  return readBytes m dest.start size

/-- `url_decode_inplace`: the memory behind it and the slice that is returned. -/
def urlDecodeInplace (str : Span) (decodePlusSignAsSpace : Bool) (m : Memory) :
    Option (Memory × Span) := do
  let (m, resultSize) ← urlDecodeTo str str decodePlusSignAsSpace m
  return (m, { str with size := resultSize })

/-! ## Decoding a string -/

variable {plus : Bool} {c : UInt8} {l x : List UInt8} {m : Memory}

theorem run_percent {high low : UInt8} (hhigh : hexToInt high < 16) (hlow : hexToInt low < 16) :
    ((urlDecoder plus).run (chr '%' :: high :: low :: l)).out =
      UInt8.ofNat (hexToInt high * 16 + hexToInt low) :: ((urlDecoder plus).run l).out := by
  have hstep : (urlDecoder plus).step (chr '%' :: high :: low :: l) =
      .next 3 [UInt8.ofNat (hexToInt high * 16 + hexToInt low)] := by
    have hbyte : percentSequence (chr '%') (high :: low :: l) =
        some (UInt8.ofNat (hexToInt high * 16 + hexToInt low)) := if_pos ⟨rfl, hhigh, hlow⟩
    rw [urlDecoder_step, urlDecodeStep, hbyte]
  rw [Transducer.run_of_next hstep]
  rfl

theorem percentSequence_of_ne (hc : c ≠ chr '%') : percentSequence c l = none := by
  fun_cases percentSequence c l with
  | case1 high low rest h => exact absurd h.1 hc
  | case2 => rfl
  | case3 => rfl

theorem run_plain (hc : c ≠ chr '%') : ((urlDecoder plus).run (c :: l)).out =
    plainChar plus c :: ((urlDecoder plus).run l).out := by
  have hstep : (urlDecoder plus).step (c :: l) = .next 1 [plainChar plus c] := by
    rw [urlDecoder_step, urlDecodeStep, percentSequence_of_ne hc]
  rw [Transducer.run_of_next hstep]
  rfl

/-- The characters that stay as they are mean nothing to the decoder. -/
theorem isUrlChar_ne (hc : isUrlChar c) : c ≠ chr '%' ∧ c ≠ chr '+' := by
  constructor
  · rintro rfl
    exact absurd hc (by decide)
  · rintro rfl
    exact absurd hc (by decide)

theorem hexToInt_upperHexDigit : ∀ i : Fin 16, hexToInt (upperHexDigit (UInt8.ofNat i)) = i := by
  decide

/-- Decoding what was encoded for one byte. -/
theorem run_encodeChar (plus : Bool) (c : UInt8) (l : List UInt8) :
    ((urlDecoder plus).run (encodeChar c ++ l)).out = c :: ((urlDecoder plus).run l).out := by
  rw [encodeChar]
  split_ifs with hc
  · obtain ⟨hpercent, hplus⟩ := isUrlChar_ne hc
    rw [List.singleton_append, run_plain hpercent, plainChar, if_neg fun h ↦ hplus h.2]
  · have hlt := c.toNat_lt
    have hdiv : c / 16 = UInt8.ofNat (c.toNat / 16) := by
      rw [← UInt8.toNat_inj, UInt8.toNat_div, UInt8.toNat_ofNat_of_lt' (by rw [UInt8.size]; omega)]
      rfl
    have hmod : c % 16 = UInt8.ofNat (c.toNat % 16) := by
      rw [← UInt8.toNat_inj, UInt8.toNat_mod, UInt8.toNat_ofNat_of_lt' (by rw [UInt8.size]; omega)]
      rfl
    have hhigh := hexToInt_upperHexDigit ⟨c.toNat / 16, by omega⟩
    have hlow := hexToInt_upperHexDigit ⟨c.toNat % 16, by omega⟩
    rw [← hdiv] at hhigh
    rw [← hmod] at hlow
    simp only [List.cons_append, List.nil_append]
    rw [run_percent (by rw [hhigh]; omega) (by rw [hlow]; omega), hhigh, hlow,
      Nat.div_add_mod', UInt8.ofNat_toNat]

theorem urlDecoder_nil : (urlDecoder plus).step [] = .stop () := rfl

theorem run_flatMap_encodeChar (plus : Bool) (x : List UInt8) :
    ((urlDecoder plus).run (x.flatMap encodeChar)).out = x := by
  induction x with
  | nil => rw [List.flatMap_nil, Transducer.run_of_stop urlDecoder_nil]
  | cons c x ih => rw [List.flatMap_cons, run_encodeChar, ih]

/-! ## Encoding -/

theorem length_flatMap_encodeChar (x : List UInt8) :
    (x.flatMap encodeChar).length + 2 * x.countP isUrlChar = 3 * x.length := by
  induction x with
  | nil => rfl
  | cons c x ih =>
    rw [List.flatMap_cons, List.length_append, List.countP_cons, List.length_cons, encodeChar]
    split_ifs <;> simp only [List.length_cons, List.length_nil] <;> omega

/-- The `CHECK` never fails, and a string without a percent sequence is its own encoding. -/
theorem urlEncode_eq (x : List UInt8) : urlEncode x = some (x.flatMap encodeChar) := by
  have hlength := length_flatMap_encodeChar x
  have hle : x.countP isUrlChar ≤ x.length := List.countP_le_length
  rw [urlEncode]
  by_cases h : 3 * x.length - 2 * x.countP isUrlChar = x.length
  · have hall : ∀ c ∈ x, isUrlChar c := List.countP_eq_length.1 (by omega)
    rw [if_pos h]
    congr 1
    conv_lhs => rw [← List.flatMap_singleton' x]
    apply List.flatMap_congr
    intro c hc
    rw [encodeChar, if_pos (hall c hc)]
  · rw [if_neg h]
    exact if_pos (by omega)

/-! ## Decoding in memory -/

/-- The loop over two pieces of memory that do not get into each other's way writes what the decoder
gives for the bytes it reads, and nothing else. -/
theorem urlDecodeTo_eq (source dest : Span) (hsize : source.size ≤ dest.size)
    (hapart : dest.start ≤ source.start ∨ source.stop ≤ dest.start) (plus : Bool) (m : Memory) :
    ∃ m' size, urlDecodeTo source dest plus m = some (m', size) ∧ size ≤ source.size ∧
      readBytes m' dest.start size = ((urlDecoder plus).run (source.bytes m)).out ∧
      ∀ a, a < dest.start ∨ dest.start + size ≤ a → m' a = m a := by
  have hunread : Cursor.unread ⟨m, source.start, dest.start⟩ source.stop = source.bytes m := by
    rw [Cursor.unread, Span.stop, Nat.add_sub_cancel_left]
    rfl
  have hrun := Transducer.run_unread (urlDecoder plus)
    (show Cursor.Apart source.stop ⟨m, source.start, dest.start⟩ from hapart)
  have hreach := (Transducer.reaches_loop (urlDecoder plus) source.stop
    ⟨m, source.start, dest.start⟩).1
  have hbetween := hreach.between (show Cursor.Apart _ ⟨m, source.start, dest.start⟩ from hapart)
  have hsrc := hreach.src_le (Nat.le_add_right source.start source.size)
  have hwritten := hbetween.written_le
  have hdest := hbetween.dest_le
  have hstop : source.stop = source.start + source.size := rfl
  rw [hunread] at hrun
  refine ⟨_, _, if_pos hsize, ?_, (congrArg Output.out hrun).symm, fun a ha ↦ hbetween.outside a ?_⟩
  · dsimp only at hwritten
    omega
  · dsimp only at hdest ha ⊢
    omega

theorem urlDecode_eq (x : List UInt8) (plus : Bool) :
    urlDecode x plus = some ((urlDecoder plus).run x).out := by
  obtain ⟨m', size, hdecode, -, hout, -⟩ := urlDecodeTo_eq ⟨0, x.length⟩
    ⟨x.length, x.length⟩ le_rfl (.inr (Nat.zero_add _).le) plus (.ofList x)
  have hbytes : Span.bytes ⟨0, x.length⟩ (.ofList x) = x := by
    rw [Span.bytes]
    simpa using readBytes_ofList [] x []
  rw [urlDecode, hdecode, ← hbytes, ← hout, hbytes]
  rfl

theorem urlDecodeInplace_eq (str : Span) (plus : Bool) (m : Memory) :
    ∃ m' size, urlDecodeInplace str plus m = some (m', ⟨str.start, size⟩) ∧ size ≤ str.size ∧
      urlDecode (str.bytes m) plus = some (readBytes m' str.start size) ∧
      ∀ a, a < str.start ∨ str.start + size ≤ a → m' a = m a := by
  obtain ⟨m', size, hdecode, hsize, hout, houtside⟩ := urlDecodeTo_eq str str
    le_rfl (.inl le_rfl) plus m
  refine ⟨m', size, ?_, hsize, ?_, houtside⟩
  · rw [urlDecodeInplace, hdecode]
    rfl
  · rw [urlDecode_eq, hout]

/-- Decoding restores what was encoded.  Decoding in place gives the bytes that decoding into any
other buffer gives, and no step of it writes past the position it has read up to. -/
theorem url_round_trip_and_inplace (plus : Bool) :
    (∀ x, ∃ text, urlEncode x = some text ∧ urlDecode text plus = some x) ∧
    ∀ (str : Span) (m : Memory),
      (∃ m' size, urlDecodeInplace str plus m = some (m', ⟨str.start, size⟩) ∧ size ≤ str.size ∧
        urlDecode (str.bytes m) plus = some (readBytes m' str.start size) ∧
        ∀ dest : Span, str.size ≤ dest.size →
          dest.start + dest.size ≤ str.start ∨ str.stop ≤ dest.start →
          ∃ m'', urlDecodeTo str dest plus m = some (m'', size) ∧
            readBytes m'' dest.start size = readBytes m' str.start size) ∧
      ∀ c, (urlDecoder plus).Reaches str.stop ⟨m, str.start, str.start⟩ c →
        c.dest ≤ c.src ∧ c.src ≤ str.stop ∧
          ∀ a, a < str.start ∨ c.dest ≤ a → c.memory a = m a := by
  refine ⟨fun x ↦ ⟨_, urlEncode_eq x, ?_⟩, fun str m ↦ ⟨?_, fun c hc ↦ ?_⟩⟩
  · rw [urlDecode_eq, run_flatMap_encodeChar]
  · obtain ⟨m', size, hdecode, hsize, hout, -⟩ := urlDecodeInplace_eq str plus m
    refine ⟨m', size, hdecode, hsize, hout, fun dest hdest hapart ↦ ?_⟩
    obtain ⟨m'', size', hdecode', -, hout', -⟩ := urlDecodeTo_eq str dest hdest
      (hapart.imp_left (Nat.le_add_right _ _).trans) plus m
    rw [urlDecode_eq, ← hout', Option.some_inj] at hout
    obtain rfl : size' = size := by
      simpa only [length_readBytes] using congrArg List.length hout
    exact ⟨m'', hdecode', hout⟩
  · exact ⟨hc.dest_le_src le_rfl, hc.src_le (Nat.le_add_right str.start str.size),
      (hc.between (.inl le_rfl)).outside⟩

/-- The text `%41+`, in place and into the bytes behind it. -/
theorem url_round_trip_and_inplace_percent : ∃ m' size m'',
    urlDecodeInplace ⟨0, 4⟩ true (.ofList [37, 52, 49, 43]) = some (m', ⟨0, size⟩) ∧
      urlDecodeTo ⟨0, 4⟩ ⟨4, 4⟩ true (.ofList [37, 52, 49, 43]) = some (m'', size) ∧
      readBytes m'' 4 size = readBytes m' 0 size := by
  obtain ⟨⟨m', size, hdecode, -, -, hother⟩, -⟩ :=
    (url_round_trip_and_inplace true).2 ⟨0, 4⟩ (.ofList [37, 52, 49, 43])
  obtain ⟨m'', hdecode', hread⟩ := hother ⟨4, 4⟩ le_rfl (.inr le_rfl)
  exact ⟨m', size, m'', hdecode, hdecode', hread⟩

end PxcCore.UrlEncode
