import PxcCore.Utils.Punycode

/-!
# Host names in ASCII

`idn_to_ascii` of `IPAddress.cpp`: the labels of a host name that are not ASCII are written in
Punycode.
-/

namespace PxcCore.Punycode

open Lib
open HttpUrl (delimiters toLowerChar_eq_iff toNat_toLowerChar toLower_toLower)
open Json (chr)
open Utf8 (encode)

/-! ## The function -/

/-- `is_ascii_host_char` -/
def isAsciiHostChar (c : UInt8) : Bool := c.toNat ≤ 127

/-- `is_ascii_host` -/
def isAsciiHost (host : List UInt8) : Bool := host.all isAsciiHostChar

/-- The loop of `full_split`. -/
def fullSplitLoop (delimiter : UInt8) (s : List UInt8) : List (List UInt8) :=
  if delimiter ∈ s then
    s.takeWhile (· ≠ delimiter) :: fullSplitLoop delimiter (s.dropWhile (· ≠ delimiter)).tail
  else [s]
termination_by s.length
decreasing_by
  rename_i hmem
  have hdrop : s.dropWhile (· ≠ delimiter) ≠ [] := fun h ↦ by
    simpa using List.dropWhile_eq_nil_iff.mp h delimiter hmem
  have hle := (List.dropWhile_sublist (· ≠ delimiter) (l := s)).length_le
  rw [List.length_tail]
  have := List.length_pos_of_ne_nil hdrop
  omega

/-- `full_split` -/
def fullSplit (s : List UInt8) (delimiter : UInt8) : List (List UInt8) :=
  if s = [] then [] else fullSplitLoop delimiter s

/-- The body of the loop over the parts, for `result` and `is_first`. -/
def appendPart (acc : List UInt8 × Bool) (part : List UInt8) :
    Except Fault (List UInt8 × Bool) := do
  let (result, isFirst) := acc
  let result := if !isFirst then result ++ [chr '.'] else result
  if isAsciiHost part then return (result ++ part, false)
  else
    let result ← punycode (result ++ ['x', 'n', '-', '-'].map chr) part
    return (result, false)

/-- `MAX_DNS_NAME_LENGTH` -/
def maxDnsNameLength : ℕ := 255

/-- `idn_to_ascii`, with the text of its error. -/
def idnToAscii (host : List UInt8) : Except Fault (Except String (List UInt8)) := do
  if isAsciiHost host then return .ok (toLower host)
  if !(← (Utf8.checkUtf8 host).mapError .utf8) then
    return .error "Host name must be encoded in UTF-8"
  if host.length ≥ maxDnsNameLength * 4 then return .error "Host name is too long"
  let parts := fullSplit host (chr '.')
  let (result, _) ← parts.foldlM appendPart ([], true)
  return .ok result

/-! ## Characters -/

theorem encodeChar_of_le {c : Char} (hc : c.toNat ≤ 127) :
    String.utf8EncodeChar c = [UInt8.ofNat c.toNat] := by
  rw [← Utf8.append_toNat, Utf8.append_one hc]

/-- A character that is not ASCII has no ASCII bytes. -/
theorem lt_of_mem_encodeChar {c : Char} (hc : 127 < c.toNat) :
    ∀ b ∈ String.utf8EncodeChar c, 127 < b.toNat := by
  have hlt := Utf8.toNat_lt c
  rw [← Utf8.append_toNat]
  rcases Utf8.append_cases (n := c.toNat) (by omega) with ⟨h, he⟩ | ⟨h, h', he⟩ | ⟨h, h', he⟩ |
    ⟨h, he⟩
  · omega
  all_goals
    rw [he]
    simp only [List.forall_mem_cons, List.not_mem_nil, false_imp_iff, implies_true, and_true]
    repeat' constructor
    all_goals
      rw [Utf8.toNat_ofNat_of_lt (by omega)]
      omega

theorem toLowerChar_of_lt {b : UInt8} (hb : 127 < b.toNat) : toLowerChar b = b := by
  rw [← UInt8.toNat_inj, toNat_toLowerChar, if_neg (by omega)]

/-- The lower case of a letter, in numbers. -/
theorem toNat_toLower (c : Char) : c.toLower.toNat = lowerCode c.toNat := by
  have hcode : lowerCode c.toNat =
      if 65 ≤ c.toNat ∧ c.toNat ≤ 90 then c.toNat + 32 else c.toNat := by
    rw [lowerCode]
    split_ifs with hle hletter hletter
    · rw [toNat_toLowerChar, toNat_ofNat_le hle, if_pos hletter]
    · rw [toNat_toLowerChar, toNat_ofNat_le hle, if_neg hletter]
    · omega
    · rfl
  have hiff : (c.val ≥ 'A'.val ∧ c.val ≤ 'Z'.val) ↔ 65 ≤ c.toNat ∧ c.toNat ≤ 90 := Iff.rfl
  rw [hcode, Char.toLower]
  split_ifs with h h' h'
  · change (c.val + 32).toNat = c.val.toNat + 32
    have hle : c.val.toNat ≤ 90 := h'.2
    have htwo : (32 : UInt32).toNat = 32 := rfl
    rw [UInt32.toNat_add, htwo, Nat.mod_eq_of_lt (by omega)]
  · exact absurd (hiff.mp h) h'
  · exact absurd (hiff.mpr h') h
  · rfl

theorem toLower_encodeChar (c : Char) :
    toLower (String.utf8EncodeChar c) = String.utf8EncodeChar c.toLower := by
  have hcode := toNat_toLower c
  rcases Nat.lt_or_ge 127 c.toNat with hlt | hle
  · rw [lowerCode_of_lt hlt] at hcode
    have hsame : c.toLower = c := Char.ext (UInt32.toNat_inj.mp hcode)
    rw [hsame, toLower, List.map_congr_left fun b hb ↦
      toLowerChar_of_lt (lt_of_mem_encodeChar hlt b hb), List.map_id']
  · have hlow : c.toLower.toNat ≤ 127 := hcode ▸ (lowerCode_le_iff _).mpr hle
    rw [encodeChar_of_le hle, encodeChar_of_le hlow, hcode, lowerCode, if_pos hle,
      UInt8.ofNat_toNat]
    rfl

theorem toLower_encode (cs : List Char) :
    toLower (encode cs) = encode (cs.map Char.toLower) := by
  induction cs with
  | nil => rfl
  | cons c cs ih =>
    rw [Utf8.encode_cons, List.map_cons, Utf8.encode_cons, ← toLower_encodeChar, ← ih]
    exact List.map_append

theorem isAsciiHost_toLower (s : List UInt8) : isAsciiHost (toLower s) = isAsciiHost s := by
  rw [isAsciiHost, isAsciiHost, toLower, List.all_map]
  refine congrArg (fun p ↦ s.all p) (funext fun c ↦ ?_)
  rw [Function.comp_apply, isAsciiHostChar, isAsciiHostChar, decide_eq_decide, toNat_toLowerChar]
  split_ifs <;> omega

/-! ## Parts -/

theorem dot_mem_delimiters : chr '.' ∈ delimiters := by decide

theorem takeWhile_toLower (s : List UInt8) : (toLower s).takeWhile (· ≠ chr '.') =
    toLower (s.takeWhile (· ≠ chr '.')) := by
  rw [toLower, List.takeWhile_map]
  refine congrArg (fun p ↦ (s.takeWhile p).map toLowerChar) (funext fun c ↦ ?_)
  simp only [Function.comp_apply, ne_eq, toLowerChar_eq_iff c _ dot_mem_delimiters]

theorem dropWhile_toLower (s : List UInt8) : (toLower s).dropWhile (· ≠ chr '.') =
    toLower (s.dropWhile (· ≠ chr '.')) := by
  rw [toLower, List.dropWhile_map]
  refine congrArg (fun p ↦ (s.dropWhile p).map toLowerChar) (funext fun c ↦ ?_)
  simp only [Function.comp_apply, ne_eq, toLowerChar_eq_iff c _ dot_mem_delimiters]

theorem fullSplitLoop_of_mem {delimiter : UInt8} {s : List UInt8} (h : delimiter ∈ s) :
    fullSplitLoop delimiter s = s.takeWhile (· ≠ delimiter) ::
      fullSplitLoop delimiter (s.dropWhile (· ≠ delimiter)).tail := by
  rw [fullSplitLoop, if_pos h]

theorem fullSplitLoop_of_notMem {delimiter : UInt8} {s : List UInt8} (h : delimiter ∉ s) :
    fullSplitLoop delimiter s = [s] := by
  rw [fullSplitLoop, if_neg h]

theorem fullSplitLoop_toLower (s : List UInt8) : fullSplitLoop (chr '.') (toLower s) =
    (fullSplitLoop (chr '.') s).map toLower := by
  induction s using fullSplitLoop.induct (chr '.') with
  | case1 s hmem ih =>
    rw [fullSplitLoop_of_mem ((HttpUrl.mem_toLower dot_mem_delimiters).mpr hmem),
      fullSplitLoop_of_mem hmem, takeWhile_toLower, dropWhile_toLower, List.map_cons, ← ih]
    congr 2
    exact List.map_tail.symm
  | case2 s hmem =>
    rw [fullSplitLoop_of_notMem ((HttpUrl.mem_toLower dot_mem_delimiters).not.mpr hmem),
      fullSplitLoop_of_notMem hmem]
    rfl

theorem fullSplit_toLower (s : List UInt8) :
    fullSplit (toLower s) (chr '.') = (fullSplit s (chr '.')).map toLower := by
  by_cases hnil : s = []
  · rw [hnil]
    rfl
  · have hnil' : toLower s ≠ [] := fun h ↦ hnil (List.map_eq_nil_iff.mp h)
    rw [fullSplit, fullSplit, if_neg hnil, if_neg hnil', fullSplitLoop_toLower]

/-- A character is the delimiter, or it has nothing of it. -/
theorem ne_of_mem_encodeChar {c : Char} (hc : c ≠ '.') :
    ∀ b ∈ String.utf8EncodeChar c, b ≠ chr '.' := by
  intro b hb heq
  have hb' : b.toNat = 46 := congrArg UInt8.toNat heq
  rcases Nat.lt_or_ge 127 c.toNat with hlt | hle
  · have := lt_of_mem_encodeChar hlt b hb
    omega
  · rw [encodeChar_of_le hle, List.mem_singleton] at hb
    rw [hb, toNat_ofNat_le hle] at hb'
    exact hc (Char.ext (UInt32.toNat_inj.mp hb'))

/-- A text is taken apart between characters. -/
theorem takeWhile_encode (cs : List Char) : (encode cs).takeWhile (· ≠ chr '.') =
    encode (cs.takeWhile (· ≠ '.')) := by
  induction cs with
  | nil => rfl
  | cons c cs ih =>
    by_cases hc : c = '.'
    · rw [hc]
      rfl
    · rw [Utf8.encode_cons, List.takeWhile_append_of_pos fun b hb ↦
        decide_eq_true (ne_of_mem_encodeChar hc b hb), ih,
        List.takeWhile_cons_of_pos (p := fun x ↦ decide (x ≠ '.')) (decide_eq_true hc),
        Utf8.encode_cons]

theorem tail_dropWhile_encode (cs : List Char) : ((encode cs).dropWhile (· ≠ chr '.')).tail =
    encode (cs.dropWhile (· ≠ '.')).tail := by
  induction cs with
  | nil => rfl
  | cons c cs ih =>
    by_cases hc : c = '.'
    · rw [hc]
      rfl
    · rw [Utf8.encode_cons, List.dropWhile_append_of_pos fun b hb ↦
        decide_eq_true (ne_of_mem_encodeChar hc b hb), ih,
        List.dropWhile_cons_of_pos (p := fun x ↦ decide (x ≠ '.')) (decide_eq_true hc)]

/-- The parts of a valid host are valid, and no longer than the host. -/
theorem valid_of_mem_fullSplitLoop {s part : List UInt8} (hs : Utf8.Valid s)
    (hpart : part ∈ fullSplitLoop (chr '.') s) :
    Utf8.Valid part ∧ part.length ≤ s.length := by
  induction s using fullSplitLoop.induct (chr '.') with
  | case1 s hmem ih =>
    obtain ⟨cs, rfl⟩ := hs
    rw [fullSplitLoop_of_mem hmem] at hpart
    rcases List.mem_cons.mp hpart with rfl | hpart
    · exact ⟨takeWhile_encode cs ▸ Utf8.valid_encode _, (List.takeWhile_sublist _).length_le⟩
    · have hvalid := tail_dropWhile_encode cs ▸ Utf8.valid_encode (cs.dropWhile (· ≠ '.')).tail
      obtain ⟨hpart', hle⟩ := ih hvalid hpart
      exact ⟨hpart', hle.trans ((List.tail_sublist _).trans (List.dropWhile_sublist _)).length_le⟩
  | case2 s hmem =>
    rw [fullSplitLoop_of_notMem hmem] at hpart
    obtain rfl := List.mem_singleton.mp hpart
    exact ⟨hs, le_rfl⟩

/-! ## Labels -/

/-- ASCII characters without upper-case letters. -/
def LowerAscii (s : List UInt8) : Prop := ∀ c ∈ s, c.toNat ≤ 127 ∧ toLowerChar c = c

/-- A label that is ASCII is in lower case. -/
def LowerLabel (part : List UInt8) : Prop := isAsciiHost part = true → toLower part = part

variable {s part result : List UInt8}

theorem isAsciiHost_iff : isAsciiHost s = true ↔ ∀ c ∈ s, c.toNat ≤ 127 := by
  simp only [isAsciiHost, isAsciiHostChar, List.all_eq_true, decide_eq_true_eq]

theorem toLower_eq_iff : toLower s = s ↔ ∀ c ∈ s, toLowerChar c = c := by
  rw [toLower]
  nth_rewrite 2 [← List.map_id s]
  exact List.map_inj_left

theorem lowerAscii_iff : LowerAscii s ↔ isAsciiHost s = true ∧ toLower s = s := by
  rw [isAsciiHost_iff, toLower_eq_iff]
  exact forall₂_and

theorem LowerAscii.append {t : List UInt8} (hs : LowerAscii s) (ht : LowerAscii t) :
    LowerAscii (s ++ t) := List.forall_mem_append.mpr ⟨hs, ht⟩

theorem lowerAscii_basicText (codes : List ℕ) : LowerAscii (basicText codes) := by
  intro c hc
  refine ⟨le_of_mem_basicText hc, ?_⟩
  obtain ⟨code, -, rfl⟩ := List.mem_map.mp hc
  exact HttpUrl.toLowerChar_toLowerChar _

theorem lowerAscii_digits {digits : List ℕ} (h : ∀ d ∈ digits, d < 36) :
    LowerAscii (digits.map digitChar) := by
  have hall : ∀ d < 36, (digitChar d).toNat ≤ 127 ∧ toLowerChar (digitChar d) = digitChar d := by
    decide
  intro c hc
  obtain ⟨d, hd, rfl⟩ := List.mem_map.mp hc
  exact hall d (h d hd)

theorem lowerAscii_assemble (codes : List ℕ) {digits : List ℕ} (h : ∀ d ∈ digits, d < 36) :
    LowerAscii (assemble (basicText codes) digits) := by
  have hdash : LowerAscii [chr '-'] := List.forall_mem_singleton.mpr ⟨by decide, by decide⟩
  rw [assemble]
  split_ifs
  · exact lowerAscii_digits h
  · exact ((lowerAscii_basicText codes).append hdash).append (lowerAscii_digits h)

theorem basicText_lowerCode (codes : List ℕ) :
    basicText (codes.map lowerCode) = basicText codes := by
  rw [basicText, filter_lowerCode, List.map_map]
  refine (List.map_congr_left fun c hc ↦ ?_).trans (List.map_id _)
  rw [Function.comp_apply, UInt8.ofNat_toNat]
  exact (lowerAscii_basicText codes c hc).2

theorem length_basicText (codes : List ℕ) :
    (basicText codes).length = (codes.filter (· ≤ 127)).length := List.length_map _

/-- Punycode does not see the case of ASCII letters. -/
theorem punycode_toLower (cs : List Char) (result : List UInt8) :
    punycode result (toLower (encode cs)) = punycode result (encode cs) := by
  have hread : ∀ cs : List Char,
      Utf8.codes (encode cs).length (encode cs) = .ok (cs.map Char.toNat) :=
    fun cs ↦ Utf8.codes_flatMap cs le_rfl
  have hcodes : (cs.map Char.toLower).map Char.toNat = (cs.map Char.toNat).map lowerCode := by
    rw [List.map_map, List.map_map]
    exact List.map_congr_left fun c _ ↦ toNat_toLower c
  rw [toLower_encode, punycode, punycode, hread, hread, hcodes]
  simp only [mapError_ok, ok_bind, ← basicText.eq_def, ← length_basicText, basicText_lowerCode,
    List.length_map, mainLoop_lowerCode _ le_rfl]

theorem lowerAscii_dot : LowerAscii [chr '.'] :=
  List.forall_mem_singleton.mpr ⟨by decide, by decide⟩

theorem lowerAscii_append_iff {t : List UInt8} :
    LowerAscii (s ++ t) ↔ LowerAscii s ∧ LowerAscii t := List.forall_mem_append

/-- What is written in front of a part. -/
def separator (isFirst : Bool) : List UInt8 := if isFirst then [] else [chr '.']

theorem lowerAscii_separator (isFirst : Bool) : LowerAscii (separator isFirst) := by
  cases isFirst with
  | false => exact lowerAscii_dot
  | true => exact fun c hc ↦ absurd hc List.not_mem_nil

theorem append_separator (isFirst : Bool) (result : List UInt8) :
    (if !isFirst then result ++ [chr '.'] else result) = result ++ separator isFirst := by
  cases isFirst with
  | false => rfl
  | true => exact (List.append_nil _).symm

/-- A part that is ASCII is copied. -/
theorem appendPart_ascii (h : isAsciiHost part = true) (result : List UInt8) (isFirst : Bool) :
    appendPart (result, isFirst) part = .ok (result ++ (separator isFirst ++ part), false) := by
  simp only [appendPart, append_separator, h, if_true, List.append_assoc]
  rfl

/-- A part that is not ASCII is written in Punycode. -/
theorem appendPart_punycode (h : isAsciiHost part = false) (result : List UInt8) (isFirst : Bool)
    {out : List UInt8}
    (hpunycode : punycode (result ++ separator isFirst ++ ['x', 'n', '-', '-'].map chr) part =
      .ok (result ++ separator isFirst ++ ['x', 'n', '-', '-'].map chr ++ out)) :
    appendPart (result, isFirst) part =
      .ok (result ++ (separator isFirst ++ (['x', 'n', '-', '-'].map chr ++ out)), false) := by
  simp only [appendPart, append_separator, h, Bool.false_eq_true, if_false, hpunycode, ok_bind]
  simp only [List.append_assoc]
  rfl

theorem lowerAscii_mark : LowerAscii (['x', 'n', '-', '-'].map chr) := by
  simp only [LowerAscii, List.map_cons, List.map_nil, List.forall_mem_cons, List.not_mem_nil,
    false_imp_iff, implies_true, and_true]
  exact ⟨⟨by decide, by decide⟩, ⟨by decide, by decide⟩, ⟨by decide, by decide⟩,
    ⟨by decide, by decide⟩⟩

/-- What is written for a part. -/
theorem appendPart_spec (hpart : Utf8.Valid part) (hlong : part.length < 1020)
    (result : List UInt8) (isFirst : Bool) :
    ∃ out, appendPart (result, isFirst) part = .ok (result ++ out, false) ∧
      (LowerLabel part ↔ LowerAscii out) ∧
      (LowerLabel part →
        appendPart (result, isFirst) (toLower part) = .ok (result ++ out, false)) := by
  cases hascii : isAsciiHost part with
  | true =>
    refine ⟨separator isFirst ++ part, appendPart_ascii hascii result isFirst, ?_, fun hlower ↦ ?_⟩
    · rw [lowerAscii_append_iff, lowerAscii_iff (s := part), LowerLabel]
      simp only [hascii, lowerAscii_separator, true_and, forall_const]
    · rw [hlower hascii]
      exact appendPart_ascii hascii result isFirst
  | false =>
    obtain ⟨cs, rfl⟩ := hpart
    obtain ⟨digits, hpunycode, hdigits, -⟩ := punycode_eq cs hlong
      (result ++ separator isFirst ++ ['x', 'n', '-', '-'].map chr)
    have hout := (lowerAscii_separator isFirst).append
      (lowerAscii_mark.append (lowerAscii_assemble (cs.map Char.toNat) hdigits))
    refine ⟨_, appendPart_punycode hascii result isFirst hpunycode,
      iff_of_true (fun h ↦ absurd (hascii.symm.trans h) Bool.false_ne_true) hout, fun _ ↦ ?_⟩
    exact appendPart_punycode ((isAsciiHost_toLower _).trans hascii) result isFirst
      ((punycode_toLower cs _).trans hpunycode)

/-- What is written for the parts. -/
theorem foldlM_appendPart {parts : List (List UInt8)}
    (hparts : ∀ part ∈ parts, Utf8.Valid part ∧ part.length < 1020) (result : List UInt8)
    (isFirst : Bool) :
    ∃ out last, parts.foldlM appendPart (result, isFirst) = .ok (result ++ out, last) ∧
      ((∀ part ∈ parts, LowerLabel part) ↔ LowerAscii out) ∧
      ((∀ part ∈ parts, LowerLabel part) →
        (parts.map toLower).foldlM appendPart (result, isFirst) = .ok (result ++ out, last)) := by
  induction parts generalizing result isFirst with
  | nil =>
    refine ⟨[], isFirst, by rw [List.append_nil]; rfl, ?_, fun _ ↦ by rw [List.append_nil]; rfl⟩
    simp [LowerAscii]
  | cons part parts ih =>
    obtain ⟨hpart, hrest⟩ := List.forall_mem_cons.mp hparts
    obtain ⟨out, happend, hiff, hlower⟩ := appendPart_spec hpart.1 hpart.2 result isFirst
    obtain ⟨outs, last, hfold, hiffs, hlowers⟩ := ih hrest (result ++ out) false
    rw [List.append_assoc] at hfold hlowers
    refine ⟨out ++ outs, last, ?_, ?_, fun hall ↦ ?_⟩
    · rw [List.foldlM_cons, happend, ok_bind, hfold]
    · rw [List.forall_mem_cons, hiff, hiffs, lowerAscii_append_iff]
    · obtain ⟨hhead, htail⟩ := List.forall_mem_cons.mp hall
      rw [List.map_cons, List.foldlM_cons, hlower hhead, ok_bind, hlowers htail]

/-! ## Host names -/

/-- The host name is ASCII, or its labels that are ASCII have no upper-case letter. -/
def LowerHost (host : List UInt8) : Prop :=
  isAsciiHost host = true ∨ ∀ part ∈ fullSplit host (chr '.'), LowerLabel part

variable {host host' result' : List UInt8}

theorem idnToAscii_ascii (h : isAsciiHost host = true) :
    idnToAscii host = .ok (.ok (toLower host)) := by
  rw [idnToAscii, if_pos h]
  rfl

theorem valid_toLower (h : Utf8.Valid host) : Utf8.Valid (toLower host) := by
  obtain ⟨cs, rfl⟩ := h
  exact ⟨cs.map Char.toLower, toLower_encode cs⟩

theorem checkUtf8_of_valid (h : Utf8.Valid host) : Utf8.checkUtf8 host = .ok true := by
  obtain ⟨r, hcheck, hiff⟩ := (Utf8.checkUtf8_spec host).1
  rw [hcheck, hiff.mpr h]

/-- A name that is not ASCII, with all of the checks. -/
theorem idnToAscii_eq (hascii : isAsciiHost host = false) (hvalid : Utf8.Valid host)
    (hlong : host.length < 1020) : idnToAscii host = (do
      let (result, _) ← (fullSplit host (chr '.')).foldlM appendPart ([], true)
      return .ok result) := by
  rw [idnToAscii, if_neg (by rw [hascii]; exact Bool.false_ne_true), checkUtf8_of_valid hvalid]
  have hshort : ¬host.length ≥ maxDnsNameLength * 4 := not_le.mpr hlong
  simp only [mapError_ok, ok_bind, Bool.not_true, Bool.false_eq_true, if_false, hshort]

/-- The names that are accepted. -/
theorem accepted_of_idnToAscii (hascii : isAsciiHost host = false)
    (h : idnToAscii host = .ok (.ok result)) : Utf8.Valid host ∧ host.length < 1020 := by
  obtain ⟨r, hcheck, hiff⟩ := (Utf8.checkUtf8_spec host).1
  rw [idnToAscii, if_neg (by rw [hascii]; exact Bool.false_ne_true), hcheck] at h
  simp only [mapError_ok, ok_bind, pure_eq_ok] at h
  cases r with
  | false => simp at h
  | true =>
    refine ⟨hiff.mp rfl, ?_⟩
    by_contra hlong
    have hge : host.length ≥ maxDnsNameLength * 4 := not_lt.mp hlong
    simp [hge] at h

theorem valid_of_mem_fullSplit (hvalid : Utf8.Valid host) (hlong : host.length < 1020) :
    ∀ part ∈ fullSplit host (chr '.'), Utf8.Valid part ∧ part.length < 1020 := by
  intro part hpart
  rw [fullSplit] at hpart
  split_ifs at hpart
  · exact absurd hpart List.not_mem_nil
  · obtain ⟨hvalid', hle⟩ := valid_of_mem_fullSplitLoop hvalid hpart
    exact ⟨hvalid', hle.trans_lt hlong⟩

/-- What is written for a name that is not ASCII. -/
theorem idnToAscii_spec (hascii : isAsciiHost host = false)
    (h : idnToAscii host = .ok (.ok result)) :
    ((∀ part ∈ fullSplit host (chr '.'), LowerLabel part) ↔ LowerAscii result) ∧
      ((∀ part ∈ fullSplit host (chr '.'), LowerLabel part) →
        idnToAscii (toLower host) = .ok (.ok result)) := by
  obtain ⟨hvalid, hlong⟩ := accepted_of_idnToAscii hascii h
  obtain ⟨out, last, hfold, hiff, hlower⟩ :=
    foldlM_appendPart (valid_of_mem_fullSplit hvalid hlong) [] true
  rw [idnToAscii_eq hascii hvalid hlong, hfold] at h
  obtain rfl : out = result := by simpa using h
  refine ⟨hiff, fun hall ↦ ?_⟩
  have hlong' : (toLower host).length < 1020 := (List.length_map _).trans_lt hlong
  rw [idnToAscii_eq ((isAsciiHost_toLower host).trans hascii) (valid_toLower hvalid) hlong',
    fullSplit_toLower, hlower hall]
  rfl

/-- A name whose labels are in lower case goes to the same name in ASCII as its lower case. -/
theorem idnToAscii_toLower (hlower : LowerHost host) (h : idnToAscii host = .ok (.ok result)) :
    idnToAscii (toLower host) = .ok (.ok result) := by
  cases hascii : isAsciiHost host with
  | true =>
    rw [idnToAscii_ascii hascii] at h
    rw [idnToAscii_ascii ((isAsciiHost_toLower host).trans hascii), toLower_toLower, h]
  | false =>
    have hparts := hlower.resolve_left (by rw [hascii]; exact Bool.false_ne_true)
    exact (idnToAscii_spec hascii h).2 hparts

theorem lowerAscii_iff_lowerHost (h : idnToAscii host = .ok (.ok result)) :
    LowerAscii result ↔ LowerHost host := by
  cases hascii : isAsciiHost host with
  | true =>
    rw [idnToAscii_ascii hascii] at h
    obtain rfl := Except.ok.inj (Except.ok.inj h)
    refine iff_of_true (lowerAscii_iff.mpr ⟨?_, toLower_toLower host⟩) (.inl hascii)
    rw [isAsciiHost_toLower, hascii]
  | false =>
    rw [← (idnToAscii_spec hascii h).1, LowerHost, hascii]
    simp

/-- The name of an ASCII host: there is no upper-case letter in it, and it stands for itself. -/
structure Canonical (result : List UInt8) : Prop where
  lower : LowerAscii result
  again : idnToAscii result = .ok (.ok result)

theorem canonical_iff (h : idnToAscii host = .ok (.ok result)) :
    Canonical result ↔ LowerHost host := by
  rw [← lowerAscii_iff_lowerHost h]
  refine ⟨Canonical.lower, fun hlower ↦ ⟨hlower, ?_⟩⟩
  obtain ⟨hascii, hsame⟩ := lowerAscii_iff.mp hlower
  rw [idnToAscii_ascii hascii, hsame]

/-- Two accepted names are canonical, and the same if they differ in the case of ASCII letters only,
exactly if their labels that are ASCII, next to those that are not, have no upper-case letters. -/
theorem idnToAscii_iff (h : idnToAscii host = .ok (.ok result))
    (h' : idnToAscii host' = .ok (.ok result')) :
    Canonical result ∧ Canonical result' ∧ (toLower host = toLower host' → result = result') ↔
      LowerHost host ∧ LowerHost host' := by
  rw [canonical_iff h, canonical_iff h', ← and_assoc]
  refine ⟨And.left, fun hlower ↦ ⟨hlower, fun hcase ↦ ?_⟩⟩
  have hsame := (idnToAscii_toLower hlower.1 h).symm.trans
    (hcase ▸ idnToAscii_toLower hlower.2 h')
  exact Except.ok.inj (Except.ok.inj hsame)

/-- `A.é` and `a.é` go to different names, and the first one does not stand for itself. -/
theorem idnToAscii_fails :
    idnToAscii [65, 46, 0xc3, 0xa9] =
      .ok (.ok (['A', '.', 'x', 'n', '-', '-', '9', 'c', 'a'].map chr)) ∧
    ¬Canonical (['A', '.', 'x', 'n', '-', '-', '9', 'c', 'a'].map chr) ∧
    toLower [65, 46, 0xc3, 0xa9] = toLower [97, 46, 0xc3, 0xa9] ∧
    idnToAscii [97, 46, 0xc3, 0xa9] =
      .ok (.ok (['a', '.', 'x', 'n', '-', '-', '9', 'c', 'a'].map chr)) := by
  refine ⟨by decide +kernel, fun h ↦ ?_, by decide +kernel, by decide +kernel⟩
  have hupper := (h.lower (chr 'A') (by simp)).2
  exact absurd hupper (by decide)

/-- `Bé` and `bé` go to the same name. -/
theorem idnToAscii_lower :
    Canonical (['x', 'n', '-', '-', 'b', '-', 'b', 'g', 'a'].map chr) := by
  have hupper : idnToAscii [0x42, 0xc3, 0xa9] =
      .ok (.ok (['x', 'n', '-', '-', 'b', '-', 'b', 'g', 'a'].map chr)) := by
    decide +kernel
  have hlower : idnToAscii [0x62, 0xc3, 0xa9] =
      .ok (.ok (['x', 'n', '-', '-', 'b', '-', 'b', 'g', 'a'].map chr)) := by
    decide +kernel
  have hhosts : LowerHost [0x42, 0xc3, 0xa9] ∧ LowerHost [0x62, 0xc3, 0xa9] := by
    constructor
    · refine .inr ?_
      unfold LowerLabel
      decide +kernel
    · refine .inr ?_
      unfold LowerLabel
      decide +kernel
  exact ((idnToAscii_iff hupper hlower).mpr hhosts).1

end PxcCore.Punycode
