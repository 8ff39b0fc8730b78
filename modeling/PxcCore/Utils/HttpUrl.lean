import PxcCore.Lib.Decimal
import PxcCore.Lib.Result
import PxcCore.Utils.Json.Parser

/-!
# URLs

`HttpUrl::get_url` and `parse_url` of `HttpUrl.cpp`, with what they use of `misc.h` and
`IPAddress.cpp`.  Strings are lists of bytes.
-/

namespace PxcCore

open Lib
open Json (chr Parser)

/-! ## Characters and numbers -/

/-- `to_lower(char)` -/
def toLowerChar (c : UInt8) : UInt8 :=
  if chr 'A' ≤ c ∧ c ≤ chr 'Z' then c - chr 'A' + chr 'a' else c

/-- `to_lower` -/
def toLower (s : List UInt8) : List UInt8 := s.map toLowerChar

/-- `is_space` -/
def isSpace (c : UInt8) : Bool := c ∈ [chr ' ', chr '\t', chr '\r', chr '\n', 0, 0x0b]

/-- `is_alpha` -/
def isAlpha (c : UInt8) : Bool := chr 'a' ≤ (c ||| 0x20) ∧ (c ||| 0x20) ≤ chr 'z'

/-- `is_digit` -/
def isDigit (c : UInt8) : Bool := chr '0' ≤ c ∧ c ≤ chr '9'

/-- `is_alnum` -/
def isAlnum (c : UInt8) : Bool := isAlpha c || isDigit c

/-- `is_hex_digit` -/
def isHexDigit (c : UInt8) : Bool :=
  isDigit c || (chr 'a' ≤ (c ||| 0x20) ∧ (c ||| 0x20) ≤ chr 'f' : Bool)

/-- `to_integer<int>` -/
def toInteger (str : List UInt8) : ℤ :=
  let isNegative : Bool := str.head? = some (chr '-')
  let digits := (if isNegative then str.tail else str).takeWhile isDigit
  let integerValue : UInt32 := digits.foldl (fun v c ↦ v * 10 + (c - chr '0').toUInt32) 0
  if integerValue > 0x7FFFFFFF then
    let integerValue := ~~~integerValue + 1
    if integerValue > 0x7FFFFFFF then -2 ^ 31
    else if !isNegative then -(integerValue.toNat : ℤ) else integerValue.toNat
  else if isNegative then -(integerValue.toNat : ℤ) else integerValue.toNat

/-- `operator<<(StringBuilder &, int)` and `to_string`. -/
def printInt (x : ℤ) : List UInt8 :=
  if x < 0 then chr '-' :: decimal x.natAbs else decimal x.natAbs

/-- `to_integer_safe<int>` -/
def toIntegerSafe (str : List UInt8) : Option ℤ :=
  let res := toInteger str
  if printInt res ≠ str then none else some res

/-! ## The parser and the printer -/

/-- `HttpUrl::Protocol` -/
inductive Protocol
  | http
  | https
deriving DecidableEq

/-- `HttpUrl` -/
structure HttpUrl where
  protocol : Protocol
  userinfo : List UInt8
  host : List UInt8
  isIpv6 : Bool
  specifiedPort : ℤ
  port : ℤ
  query : List UInt8
deriving DecidableEq

namespace HttpUrl

/-- The text of a protocol. -/
def protocolText : Protocol → List UInt8
  | .http => ['h', 't', 't', 'p'].map chr
  | .https => ['h', 't', 't', 'p', 's'].map chr

/-- `"://"` -/
def colonSlashes : List UInt8 := [':', '/', '/'].map chr

/-- `get_url` -/
def getUrl (url : HttpUrl) : Except String (List UInt8) :=
  let result := protocolText url.protocol ++ colonSlashes
  let result := if url.userinfo ≠ [] then result ++ url.userinfo ++ [chr '@'] else result
  let result := result ++ url.host
  let result :=
    if url.specifiedPort > 0 then result ++ [chr ':'] ++ printInt url.specifiedPort else result
  if url.query.head? = some (chr '/') then .ok (result ++ url.query)
  else .error "LOG_CHECK(!query_.empty() && query_[0] == '/')"

variable (inetPton : List UInt8 → Bool)

/-- `IPAddress::init_ipv6_port`, as far as it may fail for a port. `inet_pton` reads up to a zero
byte. -/
def initIpv6Port (ipv6 : List UInt8) : Bool :=
  let ipv6 := if ipv6.length > 2 ∧ ipv6.head? = some (chr '[') ∧ ipv6.getLast? = some (chr ']')
    then (ipv6.drop 1).dropLast else ipv6
  inetPton (ipv6.takeWhile (· ≠ 0))

/-- The protocol of `parse_url` and what is behind it. -/
def parseProtocol (url : List UInt8) (defaultProtocol : Protocol) :
    Except String (Protocol × Parser) :=
  let (protocolStr, parser) :=
    (Parser.mk url none).readTillNofail ([':', '/', '?', '#', '@', '[', ']'].map chr)
  let protocolStr := toLower protocolStr
  match parser.trySkipSlice colonSlashes with
  | some parser =>
    if protocolStr = protocolText .http then .ok (.http, parser)
    else if protocolStr = protocolText .https then .ok (.https, parser)
    else .error "Unsupported URL protocol"
  | none => .ok (defaultProtocol, ⟨url, none⟩)

/-- The loop that looks for the colon in front of the port. -/
def colonLoop (s : List UInt8) : ℕ → ℕ
  | 0 => 0
  | colon + 1 =>
    if s.getD (colon + 1) 0 ≠ chr ':' ∧ s.getD (colon + 1) 0 ≠ chr ']' ∧
        s.getD (colon + 1) 0 ≠ chr '@' then colonLoop s colon
    else colon + 1

/-- The loop that removes zeros from the front of the port. -/
def removeZeros : List UInt8 → List UInt8
  | c :: c' :: s => if c = chr '0' then removeZeros (c' :: s) else c :: c' :: s
  | s => s

/-- The part in front of the port, and the port. -/
def splitPort (userinfoHostPort : List UInt8) : List UInt8 × ℤ :=
  let colon := colonLoop userinfoHostPort (userinfoHostPort.length - 1)
  if colon > 0 ∧ userinfoHostPort.getD colon 0 = chr ':' then
    let port := match toIntegerSafe (removeZeros (userinfoHostPort.drop (colon + 1))) with
      | none => -1
      | some port => if port = 0 then -1 else port
    (userinfoHostPort.take colon, port)
  else (userinfoHostPort, 0)

/-- The loop of `rfind`. -/
def rfindLoop (s : List UInt8) (c : UInt8) : ℕ → Option ℕ
  | 0 => none
  | pos + 1 => if s.getD pos 0 = c then some pos else rfindLoop s c pos

/-- `rfind` -/
def rfind (s : List UInt8) (c : UInt8) : Option ℕ := rfindLoop s c s.length

/-- The user information and the host. -/
def splitUserinfo (userinfoHost : List UInt8) : List UInt8 × List UInt8 :=
  match rfind userinfoHost (chr '@') with
  | none => ([], userinfoHost)
  | some atPos => (userinfoHost.take atPos, userinfoHost.drop (atPos + 1))

/-- A host in brackets. -/
def isBracketed (host : List UInt8) : Bool :=
  host.head? = some (chr '[') ∧ host.getLast? = some (chr ']')

/-- `"0123456789ABCDEF"[i]` -/
def upperHexDigit (i : UInt8) : UInt8 := if i < 10 then chr '0' + i else chr 'A' + (i - 10)

/-- A character of the query. -/
def queryChar (c : UInt8) : List UInt8 :=
  if c ≤ 0x20 then [chr '%', upperHexDigit (c / 16), upperHexDigit (c % 16)] else [c]

/-- `query_str` -/
def queryStr (query : List UInt8) : List UInt8 :=
  let query := query.rdropWhile isSpace
  let query := if query = [] then [chr '/'] else query
  (if query.head? ≠ some (chr '/') then [chr '/'] else []) ++ query.flatMap queryChar

/-- The characters that `check_url_part` allows. -/
def isAllowed (allowColon : Bool) (c : UInt8) : Bool :=
  isAlnum c ∨
    c ∈ ['.', '-', '_', '!', '$', ',', '~', '*', '\'', '(', ')', ';', '&', '+', '='].map chr ∨
    allowColon ∧ c = chr ':'

/-- `check_url_part`. Behind a part there is an `@` or a zero byte, which is no digit. -/
def checkUrlPart (name : String) (allowColon : Bool) : List UInt8 → Except String Unit
  | [] => .ok ()
  | c :: part =>
    if isAllowed allowColon c then checkUrlPart name allowColon part
    else if c = chr '%' then
      match part with
      | c₁ :: c₂ :: part =>
        if isHexDigit c₁ ∧ isHexDigit c₂ then checkUrlPart name allowColon part
        else .error ("Wrong percent-encoded symbol in URL " ++ name)
      | _ => .error ("Wrong percent-encoded symbol in URL " ++ name)
    else if c ≥ 128 then checkUrlPart name allowColon part
    else .error ("Disallowed character in URL " ++ name)

/-- The characters of an IPv6 host. -/
def isIpv6Char (c : UInt8) : Bool :=
  c = chr ':' ∨ (chr '0' ≤ c ∧ c ≤ chr '9') ∨ (chr 'a' ≤ c ∧ c ≤ chr 'f') ∨ c = chr '.'

/-- The checks of the characters of a host and of the user information. -/
def checkHost (isIpv6 : Bool) (hostStr userinfo : List UInt8) : Except String Unit :=
  if isIpv6 then
    if (hostStr.drop 1).dropLast.all isIpv6Char then .ok () else .error "Wrong IPv6 URL host"
  else do
    checkUrlPart "host" false hostStr
    checkUrlPart "userinfo" true userinfo

/-- `parse_url` -/
def parseUrl (url : List UInt8) (defaultProtocol : Protocol) : Except String HttpUrl := do
  let (protocol, parser) ← parseProtocol url defaultProtocol
  let (userinfoHostPort, parser) := parser.readTillNofail (['/', '?', '#'].map chr)
  let (userinfoHost, port) := splitPort userinfoHostPort
  if port < 0 ∨ port > 65535 then .error "Wrong port number specified in the URL"
  else
    let (userinfo, host) := splitUserinfo userinfoHost
    let isIpv6 := isBracketed host
    if isIpv6 ∧ !initIpv6Port inetPton host then .error "Wrong IPv6 address specified in the URL"
    else if host = [] then .error "URL host is empty"
    else if host = [chr '.'] then .error "Host is invalid"
    else do
      let specifiedPort := port
      let port := if port = 0 then (match protocol with | .http => 80 | .https => 443) else port
      let queryStr := queryStr parser.data
      let hostStr := toLower host
      checkHost isIpv6 hostStr userinfo
      return ⟨protocol, userinfo, hostStr, isIpv6, specifiedPort, port, queryStr⟩

end HttpUrl

namespace HttpUrl

/-! ## Bytes -/

/-- The bytes that part a URL. -/
def delimiters : List UInt8 := [':', '/', '?', '#', '@', '[', ']', '.'].map chr ++ [0]

theorem isAllowed_notMem (c : UInt8)
    (h : isAllowed false c ∨ isHexDigit c ∨ c ≥ 128 ∨ c = chr '%') :
    c ∉ [':', ']', '@'].map chr := by
  intro hmem
  have hnone : ∀ c ∈ [':', ']', '@'].map chr,
      ¬ (isAllowed false c ∨ isHexDigit c ∨ c ≥ 128 ∨ c = chr '%') := by decide +kernel
  exact hnone c hmem h

/-- An upper-case letter becomes a lower-case one. -/
theorem toNat_toLowerChar (c : UInt8) : (toLowerChar c).toNat =
    if 65 ≤ c.toNat ∧ c.toNat ≤ 90 then c.toNat + 32 else c.toNat := by
  have hA : chr 'A' = 65 := rfl
  have hZ : chr 'Z' = 90 := rfl
  have ha : chr 'a' = 97 := rfl
  rw [toLowerChar, hA, hZ, ha]
  simp only [UInt8.le_iff_toNat_le, UInt8.reduceToNat]
  split_ifs with h
  · rw [UInt8.toNat_add, UInt8.toNat_sub]
    simp only [UInt8.reduceToNat]
    omega
  · rfl

theorem toLowerChar_toLowerChar (c : UInt8) : toLowerChar (toLowerChar c) = toLowerChar c := by
  rw [← UInt8.toNat_inj, toNat_toLowerChar, toNat_toLowerChar]
  split_ifs
  · omega
  · rfl
  · rfl

theorem toLowerChar_eq_iff (c d : UInt8) (hd : d ∈ delimiters) : toLowerChar c = d ↔ c = d := by
  have hletter : ∀ d ∈ delimiters, d.toNat < 65 ∨ 90 < d.toNat ∧ d.toNat < 97 := by
    decide +kernel
  have hd := hletter d hd
  rw [← UInt8.toNat_inj, ← UInt8.toNat_inj, toNat_toLowerChar]
  split_ifs with h
  · omega
  · rfl

theorem upperHexDigit_gt (i : UInt8) (hi : i.toNat < 16) : upperHexDigit i > 0x20 := by
  have hall : ∀ n : Fin 16, upperHexDigit (UInt8.ofNat n) > 0x20 := by decide
  have h := hall ⟨i.toNat, hi⟩
  rwa [UInt8.ofNat_toNat] at h

theorem queryChar_gt (c d : UInt8) (h : d ∈ queryChar c) : d > 0x20 := by
  have hlt := c.toNat_lt
  rw [queryChar] at h
  split_ifs at h with hc
  · simp only [List.mem_cons, List.not_mem_nil, or_false] at h
    rcases h with rfl | rfl | rfl
    · decide
    · apply upperHexDigit_gt
      rw [UInt8.toNat_div]
      show c.toNat / 16 < 16
      omega
    · apply upperHexDigit_gt
      rw [UInt8.toNat_mod]
      exact Nat.mod_lt _ (by decide)
  · rw [List.mem_singleton.1 h]
    exact UInt8.not_le.1 hc

theorem queryChar_of_gt {c : UInt8} (h : c > 0x20) : queryChar c = [c] ∧ isSpace c = false := by
  refine ⟨if_neg (UInt8.not_le.2 h), ?_⟩
  have hspace : ∀ c ∈ [chr ' ', chr '\t', chr '\r', chr '\n', 0, 0x0b], c ≤ 0x20 := by
    decide +kernel
  rw [isSpace, decide_eq_false_iff_not]
  exact fun hmem ↦ UInt8.not_le.2 h (hspace c hmem)

theorem digit_spec (c : UInt8) (h : 48 ≤ c ∧ c ≤ 57) : c ∉ delimiters ∧ isDigit c ∧ c ≠ chr '-' ∧
    (c - chr '0').toUInt32.toNat = c.toNat - 48 := by
  have hall : ∀ n : Fin 10, UInt8.ofNat (48 + n) ∉ delimiters ∧ isDigit (UInt8.ofNat (48 + n)) ∧
      UInt8.ofNat (48 + n) ≠ chr '-' ∧ (UInt8.ofNat (48 + n) - chr '0').toUInt32.toNat =
        (UInt8.ofNat (48 + n)).toNat - 48 := by decide
  rw [UInt8.le_iff_toNat_le, UInt8.le_iff_toNat_le] at h
  simp only [UInt8.reduceToNat] at h
  have hc := hall ⟨c.toNat - 48, by omega⟩
  rwa [show 48 + (c.toNat - 48) = c.toNat by omega, UInt8.ofNat_toNat] at hc

theorem toLower_toLower (s : List UInt8) : toLower (toLower s) = toLower s := by
  rw [toLower, toLower, List.map_map]
  exact List.map_congr_left fun c _ ↦ toLowerChar_toLowerChar c

theorem mem_toLower {s : List UInt8} {d : UInt8} (hd : d ∈ delimiters) :
    d ∈ toLower s ↔ d ∈ s := by
  rw [toLower, List.mem_map]
  constructor
  · rintro ⟨c, hc, hcd⟩
    exact (toLowerChar_eq_iff c d hd).1 hcd ▸ hc
  · intro h
    exact ⟨d, h, (toLowerChar_eq_iff d d hd).2 rfl⟩

theorem isBracketed_toLower (s : List UInt8) : isBracketed (toLower s) = isBracketed s := by
  have hmap (c : Option UInt8) {d : UInt8} (hd : d ∈ delimiters) :
      c.map toLowerChar = some d ↔ c = some d := by
    cases c with
    | none => simp
    | some c => simpa using toLowerChar_eq_iff c d hd
  rw [isBracketed, isBracketed, toLower, List.head?_map, List.getLast?_map, decide_eq_decide,
    hmap _ (by decide), hmap _ (by decide)]

/-! ## Ports -/

theorem toNat_foldl (digits : List UInt8) (hdigits : ∀ c ∈ digits, 48 ≤ c ∧ c ≤ 57)
    (hlt : ofDecimal digits < 2 ^ 32) :
    (digits.foldl (fun v c ↦ v * 10 + (c - chr '0').toUInt32) (0 : UInt32)).toNat =
      ofDecimal digits := by
  induction digits using List.reverseRecOn with
  | nil => rfl
  | append_singleton digits c ih =>
    have hc := (digit_spec c (hdigits c (by simp))).2.2.2
    have hval : ofDecimal (digits ++ [c]) = ofDecimal digits * 10 + (c.toNat - 48) := by
      rw [ofDecimal, List.foldl_append]
      rfl
    rw [hval] at hlt ⊢
    have ih := ih (fun c hc ↦ hdigits c (List.mem_append_left _ hc)) (by omega)
    rw [List.foldl_append, List.foldl_cons, List.foldl_nil, UInt32.toNat_add, UInt32.toNat_mul,
      ih, hc]
    show (ofDecimal digits * 10 % 2 ^ 32 + (c.toNat - 48)) % 2 ^ 32 = _
    omega

theorem toInteger_decimal {n : ℕ} (hn : n < 2 ^ 31) : toInteger (decimal n) = n := by
  have hdigits := fun c hc ↦ digit_spec c (@digit_of_mem_decimal n c hc)
  have hhead : decide ((decimal n).head? = some (chr '-')) = false := by
    rw [decide_eq_false_iff_not]
    intro h
    exact (hdigits _ (List.mem_of_mem_head? h)).2.2.1 rfl
  have htake : (decimal n).takeWhile isDigit = decimal n :=
    List.takeWhile_eq_self_iff.2 fun c hc ↦ (hdigits c hc).2.1
  have hfold := toNat_foldl (decimal n) (fun c hc ↦ digit_of_mem_decimal hc) (by
    rw [ofDecimal_decimal]
    omega)
  rw [ofDecimal_decimal] at hfold
  rw [toInteger]
  simp only [hhead, Bool.false_eq_true, if_false, htake]
  rw [if_neg, hfold]
  rw [gt_iff_lt, UInt32.lt_iff_toNat_lt, hfold, not_lt]
  show n ≤ 2 ^ 31 - 1
  omega

theorem toIntegerSafe_decimal {n : ℕ} (hn : n < 2 ^ 31) :
    toIntegerSafe (decimal n) = some (n : ℤ) := by
  have hprint : printInt n = decimal n := by
    rw [printInt, if_neg (by omega), Int.natAbs_natCast]
  simp only [toIntegerSafe, toInteger_decimal hn, hprint, ne_eq, not_true_eq_false, if_false]

theorem removeZeros_decimal {n : ℕ} (hn : n ≠ 0) : removeZeros (decimal n) = decimal n := by
  have hhead := head?_decimal hn
  rcases hdecimal : decimal n with - | ⟨c, - | ⟨c', s⟩⟩
  · rfl
  · rfl
  · rw [hdecimal] at hhead
    exact if_neg fun hc ↦ hhead (congrArg some hc)

/-- The loop stops at the last of the three bytes. -/
theorem colonLoop_append {pre post : List UInt8} {c : UInt8}
    (hc : pre = [] ∨ c ∈ [':', ']', '@'].map chr) (hpost : ∀ c ∈ post, c ∉ [':', ']', '@'].map chr)
    {k : ℕ} (hk : k ≤ post.length) :
    colonLoop (pre ++ c :: post) (pre.length + k) = pre.length := by
  induction k with
  | zero =>
    rcases pre with - | ⟨b, pre⟩
    · rfl
    · have hc := hc.resolve_left (List.cons_ne_nil _ _)
      have hget : (b :: pre ++ c :: post).getD (pre.length + 1) 0 = c := by simp
      show colonLoop _ (pre.length + 1) = _
      rw [colonLoop, hget, if_neg]
      · rfl
      · simp only [List.map_cons, List.map_nil, List.mem_cons, List.not_mem_nil, or_false] at hc
        tauto
  | succ k ih =>
    have hget : (pre ++ c :: post).getD (pre.length + k + 1) 0 = post[k] := by
      rw [List.getD_append_right _ _ _ _ (by omega),
        show pre.length + k + 1 - pre.length = k + 1 by omega, List.getD_cons_succ]
      exact (List.getElem_eq_getD 0).symm
    have hpost := hpost _ (List.getElem_mem (by omega : k < post.length))
    simp only [List.map_cons, List.map_nil, List.mem_cons, List.not_mem_nil, or_false,
      not_or] at hpost
    rw [← Nat.add_assoc, colonLoop, hget, if_pos hpost, ih (by omega)]

/-- A port behind the host. -/
theorem splitPort_decimal {s : List UInt8} (hs : s ≠ []) {n : ℕ} (hn : n ≠ 0) (hlt : n < 2 ^ 31) :
    splitPort (s ++ chr ':' :: decimal n) = (s, (n : ℤ)) := by
  have hpost : ∀ c ∈ decimal n, c ∉ [':', ']', '@'].map chr := fun c hc hmem ↦
    (digit_spec c (digit_of_mem_decimal hc)).1 (List.mem_append_left _ (by
      simp only [List.map_cons, List.map_nil, List.mem_cons, List.not_mem_nil, or_false] at hmem ⊢
      tauto))
  have hcolon : colonLoop (s ++ chr ':' :: decimal n) ((s ++ chr ':' :: decimal n).length - 1) =
      s.length := by
    have h := @colonLoop_append s (decimal n) (chr ':') (Or.inr (by decide)) hpost _ le_rfl
    simpa using h
  simp only [splitPort, hcolon]
  simp only [List.length_pos_iff.2 hs, true_and]
  rw [if_pos (by simp), List.drop_append, List.drop_of_length_le (by omega)]
  simp [removeZeros_decimal hn, toIntegerSafe_decimal hlt, hn]

/-- No port behind the host. -/
theorem splitPort_none {pre post : List UInt8} {c : UInt8}
    (hc : pre = [] ∨ c = chr ']' ∨ c = chr '@') (hpost : ∀ c ∈ post, c ∉ [':', ']', '@'].map chr) :
    splitPort (pre ++ c :: post) = (pre ++ c :: post, 0) := by
  have hcolon : colonLoop (pre ++ c :: post) ((pre ++ c :: post).length - 1) = pre.length := by
    have hc : pre = [] ∨ c ∈ [':', ']', '@'].map chr := by
      rcases hc with hc | rfl | rfl
      · exact Or.inl hc
      · exact Or.inr (by decide)
      · exact Or.inr (by decide)
    have h := @colonLoop_append pre post c hc hpost _ le_rfl
    simpa using h
  simp only [splitPort, hcolon]
  refine if_neg ?_
  rintro ⟨hpos, hcolon⟩
  rw [List.getD_append_right _ _ _ _ le_rfl, Nat.sub_self] at hcolon
  have hcolon : c = chr ':' := hcolon
  rcases hc with rfl | rfl | rfl
  · exact Nat.lt_irrefl _ hpos
  · exact absurd hcolon (by decide)
  · exact absurd hcolon (by decide)

/-- What is in front of a port is a part of the string. -/
theorem splitPort_prefix (s : List UInt8) : (splitPort s).1 <+: s := by
  rw [splitPort]
  split_ifs
  · exact List.take_prefix _ _
  · exact List.prefix_rfl

/-! ## User information -/

theorem rfindLoop_none {s : List UInt8} {c : UInt8} {n : ℕ} (h : rfindLoop s c n = none) :
    ∀ i < n, s.getD i 0 ≠ c := by
  induction n with
  | zero => exact fun i hi ↦ absurd hi i.not_lt_zero
  | succ n ih =>
    rw [rfindLoop] at h
    split_ifs at h with hc
    intro i hi
    rcases Nat.lt_succ_iff_lt_or_eq.1 hi with hi | rfl
    · exact ih h i hi
    · exact hc

theorem rfindLoop_some {s : List UInt8} {c : UInt8} {n pos : ℕ} (h : rfindLoop s c n = some pos) :
    pos < n ∧ s.getD pos 0 = c ∧ ∀ i < n, pos < i → s.getD i 0 ≠ c := by
  induction n with
  | zero => cases h
  | succ n ih =>
    rw [rfindLoop] at h
    split_ifs at h with hc
    · cases h
      exact ⟨Nat.lt_succ_self _, hc, fun i hi hlt ↦ absurd (Nat.le_of_lt_succ hi) (not_le.2 hlt)⟩
    · obtain ⟨hlt, hpos, hlast⟩ := ih h
      refine ⟨hlt.trans n.lt_succ_self, hpos, fun i hi hlt ↦ ?_⟩
      rcases Nat.lt_succ_iff_lt_or_eq.1 hi with hi | rfl
      · exact hlast i hi hlt
      · exact hc

/-- The host is behind the last `@`. -/
theorem splitUserinfo_spec (s : List UInt8) :
    (splitUserinfo s = ([], s) ∧ chr '@' ∉ s) ∨
      s = (splitUserinfo s).1 ++ chr '@' :: (splitUserinfo s).2 ∧
        chr '@' ∉ (splitUserinfo s).2 := by
  rw [splitUserinfo, rfind]
  rcases hfind : rfindLoop s (chr '@') s.length with - | pos
  · refine Or.inl ⟨rfl, fun hmem ↦ ?_⟩
    obtain ⟨i, hi, hget⟩ := List.getElem_of_mem hmem
    exact rfindLoop_none hfind i hi ((List.getElem_eq_getD 0).symm.trans hget)
  · obtain ⟨hlt, hpos, hlast⟩ := rfindLoop_some hfind
    have hget : s[pos] = chr '@' := (List.getElem_eq_getD 0).trans hpos
    refine Or.inr ⟨?_, fun hmem ↦ ?_⟩
    · show s = s.take pos ++ chr '@' :: s.drop (pos + 1)
      rw [← hget, ← List.drop_eq_getElem_cons hlt, List.take_append_drop]
    · obtain ⟨i, hi, hget⟩ := List.getElem_of_mem hmem
      rw [List.length_drop] at hi
      rw [List.getElem_drop] at hget
      exact hlast (pos + 1 + i) (by omega) (by omega) ((List.getElem_eq_getD 0).symm.trans hget)

/-- There is only one last byte of a kind. -/
theorem append_cons_inj {s t s' t' : List UInt8} {c : UInt8} (ht : c ∉ t) (ht' : c ∉ t')
    (h : s ++ c :: t = s' ++ c :: t') : s = s' ∧ t = t' := by
  rcases List.append_eq_append_iff.1 h with ⟨r, rfl, hr⟩ | ⟨r, rfl, hr⟩
  · rcases r with - | ⟨d, r⟩
    · exact ⟨(List.append_nil s).symm, (List.cons_inj_right c).1 hr⟩
    · rw [List.cons_append, List.cons.injEq] at hr
      exact absurd (hr.2 ▸ List.mem_append_right r List.mem_cons_self) ht
  · rcases r with - | ⟨d, r⟩
    · exact ⟨List.append_nil s', ((List.cons_inj_right c).1 hr).symm⟩
    · rw [List.cons_append, List.cons.injEq] at hr
      exact absurd (hr.2 ▸ List.mem_append_right r List.mem_cons_self) ht'

theorem splitUserinfo_append (userinfo : List UInt8) {host : List UInt8} (h : chr '@' ∉ host) :
    splitUserinfo (userinfo ++ chr '@' :: host) = (userinfo, host) := by
  rcases splitUserinfo_spec (userinfo ++ chr '@' :: host) with ⟨-, hmem⟩ | ⟨heq, hmem⟩
  · exact absurd (List.mem_append_right _ List.mem_cons_self) hmem
  · obtain ⟨huserinfo, hhost⟩ := append_cons_inj h hmem heq
    exact Prod.ext huserinfo.symm hhost.symm

theorem splitUserinfo_none {host : List UInt8} (h : chr '@' ∉ host) :
    splitUserinfo host = ([], host) := by
  rcases splitUserinfo_spec host with ⟨heq, -⟩ | ⟨heq, -⟩
  · exact heq
  · exact absurd (heq ▸ List.mem_append_right _ List.mem_cons_self) h

/-! ## Queries -/

/-- A query as it is stored. -/
structure IsQuery (query : List UInt8) : Prop where
  head : query.head? = some (chr '/')
  gt : ∀ c ∈ query, c > 0x20

theorem isQuery_queryStr (query : List UInt8) : IsQuery (queryStr query) := by
  have hflat (query : List UInt8) : ∀ c ∈ query.flatMap queryChar, c > 0x20 := by
    intro c hc
    obtain ⟨d, -, hd⟩ := List.mem_flatMap.1 hc
    exact queryChar_gt d c hd
  simp only [queryStr]
  obtain ⟨q, hq⟩ : ∃ q, q = if query.rdropWhile isSpace = [] then [chr '/']
    else query.rdropWhile isSpace := ⟨_, rfl⟩
  have hne : q ≠ [] := by
    rw [hq]
    split_ifs with h
    · exact List.cons_ne_nil _ _
    · exact h
  rw [← hq]
  obtain ⟨c, q, rfl⟩ := List.exists_cons_of_ne_nil hne
  by_cases hc : c = chr '/'
  · subst hc
    exact ⟨rfl, by simpa using hflat (chr '/' :: q)⟩
  · rw [if_pos (by simpa using hc)]
    refine ⟨rfl, fun d hd ↦ ?_⟩
    rcases List.mem_cons.1 hd with rfl | hd
    · decide
    · exact hflat _ d hd

theorem queryStr_of_isQuery {query : List UInt8} (h : IsQuery query) : queryStr query = query := by
  have hne : query ≠ [] := by
    rintro rfl
    exact absurd h.head (by simp)
  have hdrop : query.rdropWhile isSpace = query := by
    rw [List.rdropWhile_eq_self_iff]
    intro _
    rw [(queryChar_of_gt (h.gt _ (List.getLast_mem hne))).2]
    exact Bool.false_ne_true
  have hflat : query.flatMap queryChar = query := by
    calc query.flatMap queryChar = query.flatMap fun c ↦ [c] :=
          List.flatMap_congr fun c hc ↦ (queryChar_of_gt (h.gt c hc)).1
      _ = query := List.flatMap_singleton' query
  simp only [queryStr, hdrop, if_neg hne, hflat, h.head, ne_eq, not_true_eq_false, if_false,
    List.nil_append]

/-! ## Hosts -/

theorem checkUrlPart_notMem {name : String} {part : List UInt8}
    (h : checkUrlPart name false part = .ok ()) : ∀ c ∈ part, c ∉ [':', ']', '@'].map chr := by
  fun_induction checkUrlPart name false part with
  | case1 => exact fun c hc ↦ absurd hc List.not_mem_nil
  | case2 c part hc ih => exact List.forall_mem_cons.2 ⟨isAllowed_notMem c (Or.inl hc), ih h⟩
  | case3 c₁ c₂ part hhex _ ih =>
    simp only [List.forall_mem_cons]
    exact ⟨by decide, isAllowed_notMem c₁ (Or.inr (Or.inl hhex.1)),
      isAllowed_notMem c₂ (Or.inr (Or.inl hhex.2)), ih h⟩
  | case4 => cases h
  | case5 => cases h
  | case6 c part _ _ hc ih =>
    exact List.forall_mem_cons.2 ⟨isAllowed_notMem c (Or.inr (Or.inr (Or.inl hc))), ih h⟩
  | case7 => cases h

/-! ## Accepted URLs -/

/-- What `parse_url` says about the URLs that it returns. -/
structure Accepted (inetPton : List UInt8 → Bool) (url : HttpUrl) : Prop where
  userinfo : ∀ c ∈ url.userinfo, c ∉ ['/', '?', '#'].map chr
  host : ∀ c ∈ url.host, c ∉ ['/', '?', '#'].map chr
  at_notMem : chr '@' ∉ url.host
  host_ne_nil : url.host ≠ []
  host_ne_dot : url.host ≠ [chr '.']
  toLower_host : toLower url.host = url.host
  isIpv6_eq : url.isIpv6 = isBracketed url.host
  ipv6 : url.isIpv6 = true → initIpv6Port inetPton url.host = true ∧
    (url.host.drop 1).dropLast.all isIpv6Char = true
  parts : url.isIpv6 = false → checkUrlPart "host" false url.host = .ok () ∧
    checkUrlPart "userinfo" true url.userinfo = .ok ()
  specifiedPort : 0 ≤ url.specifiedPort ∧ url.specifiedPort ≤ 65535
  port : url.port = if url.specifiedPort = 0 then
      (match url.protocol with | .http => 80 | .https => 443) else url.specifiedPort
  query : IsQuery url.query

variable {inetPton : List UInt8 → Bool} {url : List UInt8} {defaultProtocol : Protocol}

/-- Lower case makes no difference to the address. -/
theorem initIpv6Port_toLower (hpton : ∀ s, inetPton (toLower s) = inetPton s) (s : List UInt8) :
    initIpv6Port inetPton (toLower s) = initIpv6Port inetPton s := by
  have htake (s : List UInt8) : (toLower s).takeWhile (· ≠ 0) = toLower (s.takeWhile (· ≠ 0)) := by
    rw [toLower, toLower, List.takeWhile_map]
    congr 2
    funext c
    simpa using toLowerChar_eq_iff c 0 (by decide)
  have hbracketed := isBracketed_toLower s
  rw [isBracketed, isBracketed, decide_eq_decide] at hbracketed
  have hlength : (toLower s).length = s.length := List.length_map _
  have hdrop : ((toLower s).drop 1).dropLast = toLower (s.drop 1).dropLast := by
    rw [toLower, toLower, List.map_dropLast, List.map_drop]
  simp only [initIpv6Port, hlength, hbracketed, hdrop]
  split_ifs
  · rw [htake, hpton]
  · rw [htake, hpton]

/-- What `parse_url` takes a URL apart into when no check fails. -/
theorem exists_of_parseUrl {u : HttpUrl} (h : parseUrl inetPton url defaultProtocol = .ok u) :
    ∃ protocol parser userinfoHostPort rest userinfoHost port userinfo host,
      parseProtocol url defaultProtocol = .ok (protocol, parser) ∧
      parser.readTillNofail (['/', '?', '#'].map chr) = (userinfoHostPort, rest) ∧
      splitPort userinfoHostPort = (userinfoHost, port) ∧
      splitUserinfo userinfoHost = (userinfo, host) ∧
      ¬(port < 0 ∨ port > 65535) ∧
      ¬(isBracketed host = true ∧ (!initIpv6Port inetPton host) = true) ∧
      host ≠ [] ∧ host ≠ [chr '.'] ∧
      checkHost (isBracketed host) (toLower host) userinfo = .ok () ∧
      u = ⟨protocol, userinfo, toLower host, isBracketed host, port,
        if port = 0 then (match protocol with | .http => 80 | .https => 443) else port,
        queryStr rest.data⟩ := by
  rw [parseUrl] at h
  obtain ⟨⟨protocol, parser⟩, hprotocol, h⟩ := bind_eq_ok.1 h
  rcases hread : parser.readTillNofail (['/', '?', '#'].map chr) with ⟨userinfoHostPort, rest⟩
  rcases hport : splitPort userinfoHostPort with ⟨userinfoHost, port⟩
  rcases hsplit : splitUserinfo userinfoHost with ⟨userinfo, host⟩
  simp only [hread, hport, hsplit] at h
  by_cases hrange : port < 0 ∨ port > 65535
  · rw [if_pos hrange] at h
    cases h
  by_cases hipv6 : isBracketed host = true ∧ (!initIpv6Port inetPton host) = true
  · rw [if_neg hrange, if_pos hipv6] at h
    cases h
  by_cases hnil : host = []
  · rw [if_neg hrange, if_neg hipv6, if_pos hnil] at h
    cases h
  by_cases hdot : host = [chr '.']
  · rw [if_neg hrange, if_neg hipv6, if_neg hnil, if_pos hdot] at h
    cases h
  rw [if_neg hrange, if_neg hipv6, if_neg hnil, if_neg hdot] at h
  obtain ⟨_, hcheck, hret⟩ := bind_eq_ok.1 h
  exact ⟨protocol, parser, userinfoHostPort, rest, userinfoHost, port, userinfo, host, hprotocol,
    hread, hport, hsplit, hrange, hipv6, hnil, hdot, hcheck, (Except.ok.inj hret).symm⟩

theorem accepted_of_parseUrl (hpton : ∀ s, inetPton (toLower s) = inetPton s) {u : HttpUrl}
    (h : parseUrl inetPton url defaultProtocol = .ok u) : Accepted inetPton u := by
  obtain ⟨protocol, parser, userinfoHostPort, rest, userinfoHost, port, userinfo, host, hprotocol,
    hread, hport, hsplit, hrange, hipv6, hnil, hdot, hcheck, rfl⟩ := exists_of_parseUrl h
  have hparts : ∀ c ∈ userinfoHost, c ∉ ['/', '?', '#'].map chr := by
    intro c hc
    have hprefix := splitPort_prefix userinfoHostPort
    rw [hport] at hprefix
    have hmem := hprefix.subset hc
    rw [Parser.readTillNofail] at hread
    split_ifs at hread
    · cases hread
      exact absurd hmem List.not_mem_nil
    · cases hread
      have hdelim := List.mem_takeWhile_imp hmem
      exact of_decide_eq_true hdelim
  have hsplit' : (∀ c ∈ userinfo, c ∈ userinfoHost) ∧ (∀ c ∈ host, c ∈ userinfoHost) ∧
      chr '@' ∉ host := by
    have hspec := splitUserinfo_spec userinfoHost
    rw [hsplit] at hspec
    rcases hspec with ⟨heq, hmem⟩ | ⟨rfl, hmem⟩
    · cases heq
      exact ⟨fun c hc ↦ absurd hc List.not_mem_nil, fun c hc ↦ hc, hmem⟩
    · exact ⟨fun c hc ↦ List.mem_append_left _ hc,
        fun c hc ↦ List.mem_append_right _ (List.mem_cons_of_mem _ hc), hmem⟩
  obtain ⟨huserinfo, hhost, hat⟩ := hsplit'
  exact {
    userinfo := fun c hc ↦ hparts c (huserinfo c hc)
    host := fun c hc hmem ↦ by
      have hdelim : ∀ c ∈ ['/', '?', '#'].map chr, c ∈ delimiters := by decide +kernel
      exact hparts c (hhost c ((mem_toLower (hdelim c hmem)).1 hc)) hmem
    at_notMem := fun hmem ↦ hat ((mem_toLower (by decide)).1 hmem)
    host_ne_nil := fun heq ↦ hnil (List.map_eq_nil_iff.1 heq)
    host_ne_dot := fun heq ↦ by
      obtain ⟨c, rfl, hc⟩ := List.map_eq_singleton_iff.1 heq
      exact hdot (congrArg (fun c ↦ [c]) ((toLowerChar_eq_iff c _ (by decide)).1 hc))
    toLower_host := toLower_toLower host
    isIpv6_eq := (isBracketed_toLower host).symm
    ipv6 := fun hbracketed ↦ by
      have hbracketed : isBracketed host = true := hbracketed
      rw [hbracketed] at hipv6 hcheck
      rw [checkHost, if_pos rfl] at hcheck
      split_ifs at hcheck with hall
      exact ⟨(initIpv6Port_toLower hpton host).trans (by simpa using hipv6), hall⟩
    parts := fun hbracketed ↦ by
      have hbracketed : isBracketed host = false := hbracketed
      rw [hbracketed, checkHost, if_neg Bool.false_ne_true] at hcheck
      rcases hfirst : checkUrlPart "host" false (toLower host) with e | _
      · rw [hfirst] at hcheck
        cases hcheck
      · rw [hfirst, ok_bind] at hcheck
        exact ⟨rfl, hcheck⟩
    specifiedPort := by
      simp only
      omega
    port := rfl
    query := isQuery_queryStr _ }

/-! ## Printing and parsing -/

/-- The part of a URL between the protocol and the query. -/
def authority (u : HttpUrl) : List UInt8 :=
  (if u.userinfo ≠ [] then u.userinfo ++ [chr '@'] else []) ++ u.host

/-- The port of a URL as it is printed. -/
def portText (u : HttpUrl) : List UInt8 :=
  if u.specifiedPort > 0 then chr ':' :: printInt u.specifiedPort else []

theorem getUrl_eq {u : HttpUrl} (h : IsQuery u.query) : u.getUrl =
    .ok (protocolText u.protocol ++ (colonSlashes ++ (authority u ++ portText u ++ u.query))) := by
  simp only [getUrl, if_pos h.head]
  by_cases huserinfo : u.userinfo = [] <;> by_cases hport : u.specifiedPort > 0 <;>
    simp [authority, portText, huserinfo, hport]

theorem parseProtocol_append (protocol : Protocol) (rest : List UInt8) :
    parseProtocol (protocolText protocol ++ (colonSlashes ++ rest)) defaultProtocol =
      .ok (protocol, ⟨rest, none⟩) := by
  have hpre : ∀ c ∈ protocolText protocol, c ∉ [':', '/', '?', '#', '@', '[', ']'].map chr := by
    cases protocol <;> decide +kernel
  have hread := Parser.readTillNofail_append hpre
    (show chr ':' ∈ [':', '/', '?', '#', '@', '[', ']'].map chr by decide)
    ([chr '/', chr '/'] ++ rest)
  have hcolon : colonSlashes ++ rest = chr ':' :: ([chr '/', chr '/'] ++ rest) := rfl
  simp only [parseProtocol]
  rw [hcolon, hread]
  dsimp only
  rw [← hcolon, Parser.trySkipSlice_append]
  cases protocol with
  | http => exact if_pos (by decide)
  | https =>
    dsimp only
    rw [if_neg (by decide), if_pos (by decide)]

theorem splitUserinfo_authority {u : HttpUrl} (h : Accepted inetPton u) :
    splitUserinfo (authority u) = (u.userinfo, u.host) := by
  rw [authority]
  split_ifs with huserinfo
  · rw [List.append_assoc]
    exact splitUserinfo_append u.userinfo h.at_notMem
  · rw [List.nil_append, splitUserinfo_none h.at_notMem, not_not.1 huserinfo]

theorem authority_ne_nil {u : HttpUrl} (h : Accepted inetPton u) : authority u ≠ [] :=
  List.append_ne_nil_of_right_ne_nil _ h.host_ne_nil

/-- The last of the bytes that end a port is not a colon. -/
theorem splitPort_authority {u : HttpUrl} (h : Accepted inetPton u) :
    splitPort (authority u) = (authority u, 0) := by
  rcases hipv6 : u.isIpv6 with - | -
  · have hhost := checkUrlPart_notMem (h.parts hipv6).1
    rw [authority]
    split_ifs with huserinfo
    · rw [List.append_assoc]
      exact splitPort_none (Or.inr (Or.inr rfl)) hhost
    · obtain ⟨c, host, heq⟩ := List.exists_cons_of_ne_nil h.host_ne_nil
      rw [heq] at hhost ⊢
      exact @splitPort_none [] host c (Or.inl rfl) fun c hc ↦
        hhost c (List.mem_cons_of_mem _ hc)
  · have hbracketed := h.isIpv6_eq.symm.trans hipv6
    rw [isBracketed, decide_eq_true_iff] at hbracketed
    obtain ⟨host, heq⟩ := List.getLast?_eq_some_iff.1 hbracketed.2
    rw [authority, heq, ← List.append_assoc]
    exact splitPort_none (Or.inr (Or.inl rfl)) fun c hc ↦ absurd hc List.not_mem_nil

theorem splitPort_append {u : HttpUrl} (h : Accepted inetPton u) :
    splitPort (authority u ++ portText u) = (authority u, u.specifiedPort) := by
  have hrange := h.specifiedPort
  rw [portText]
  split_ifs with hport
  · obtain ⟨n, hn⟩ := Int.eq_ofNat_of_zero_le hrange.1
    rw [hn] at hport hrange ⊢
    rw [printInt, if_neg (by omega), Int.natAbs_natCast]
    exact splitPort_decimal (authority_ne_nil h) (by omega) (by omega)
  · rw [List.append_nil, splitPort_authority h]
    congr 1
    omega

theorem authority_notMem {u : HttpUrl} (h : Accepted inetPton u) :
    ∀ c ∈ authority u ++ portText u, c ∉ ['/', '?', '#'].map chr := by
  intro c hc
  have hother : ∀ c ∈ ['@', ':', '-'].map chr, c ∉ ['/', '?', '#'].map chr := by decide +kernel
  have hdelim : ∀ c ∈ ['/', '?', '#'].map chr, c ∈ delimiters := by decide +kernel
  rcases List.mem_append.1 hc with hc | hc
  · rcases List.mem_append.1 hc with hc | hc
    · split_ifs at hc with huserinfo
      · rcases List.mem_append.1 hc with hc | hc
        · exact h.userinfo c hc
        · exact hother c (List.mem_singleton.1 hc ▸ by decide)
      · exact absurd hc List.not_mem_nil
    · exact h.host c hc
  · rw [portText] at hc
    split_ifs at hc with hport
    · rw [printInt, if_neg (by omega)] at hc
      rcases List.mem_cons.1 hc with rfl | hc
      · exact hother _ (by decide)
      · exact fun hmem ↦ (digit_spec c (digit_of_mem_decimal hc)).1 (hdelim c hmem)
    · exact absurd hc List.not_mem_nil

/-- What is printed is parsed again. -/
theorem parseUrl_of_accepted {u : HttpUrl} (h : Accepted inetPton u) :
    ∃ text, u.getUrl = .ok text ∧ parseUrl inetPton text defaultProtocol = .ok u := by
  refine ⟨_, getUrl_eq h.query, ?_⟩
  obtain ⟨query, hquery⟩ : ∃ query, u.query = chr '/' :: query := by
    have hhead := h.query.head
    rcases hquery : u.query with - | ⟨c, query⟩
    · rw [hquery] at hhead
      cases hhead
    · rw [hquery] at hhead
      cases hhead
      exact ⟨query, rfl⟩
  have hread := Parser.readTillNofail_append (authority_notMem h)
    (show chr '/' ∈ ['/', '?', '#'].map chr by decide) query
  have hcheck : checkHost u.isIpv6 u.host u.userinfo = .ok () := by
    rw [checkHost]
    split_ifs with hipv6 hall
    · rfl
    · exact absurd (h.ipv6 hipv6).2 hall
    · obtain ⟨hhost, huserinfo⟩ := h.parts (Bool.eq_false_iff.2 hipv6)
      rw [hhost, ok_bind, huserinfo]
  have hrange := h.specifiedPort
  rw [parseUrl, parseProtocol_append, ok_bind]
  simp only
  rw [hquery, hread]
  simp only
  rw [splitPort_append h]
  simp only
  rw [if_neg (by omega), splitUserinfo_authority h]
  simp only
  rw [← h.isIpv6_eq, if_neg, if_neg h.host_ne_nil, if_neg h.host_ne_dot, h.toLower_host, hcheck,
    ok_bind, ← hquery, queryStr_of_isQuery h.query, ← h.port]
  · rfl
  · rintro ⟨hipv6, hpton⟩
    rw [(h.ipv6 hipv6).1] at hpton
    exact absurd hpton (by decide)

/-- What an accepted URL is printed as is parsed as the same URL. -/
theorem parseUrl_getUrl (hpton : ∀ s, inetPton (toLower s) = inetPton s) {u : HttpUrl}
    (h : parseUrl inetPton url defaultProtocol = .ok u) (defaultProtocol' : Protocol) :
    ∃ text, u.getUrl = .ok text ∧ parseUrl inetPton text defaultProtocol' = .ok u :=
  parseUrl_of_accepted (accepted_of_parseUrl hpton h)

/-- `inet_pton` as far as it is asked about the address `A::1`. -/
def inetPtonOne (s : List UInt8) : Bool := toLower s = ['a', ':', ':', '1'].map chr

/-- A URL with user information, an IPv6 host in upper case and a blank in the query. -/
theorem parseUrl_getUrl_ipv6 : ∃ text,
    getUrl ⟨.http, ['m', 'e'].map chr, ['[', 'a', ':', ':', '1', ']'].map chr, true, 0, 80,
      ['/', '?', 'x', '%', '2', '0', 'y'].map chr⟩ = .ok text ∧
    parseUrl inetPtonOne text .http =
      .ok ⟨.http, ['m', 'e'].map chr, ['[', 'a', ':', ':', '1', ']'].map chr, true, 0, 80,
        ['/', '?', 'x', '%', '2', '0', 'y'].map chr⟩ :=
  @parseUrl_getUrl inetPtonOne (['H', 'T', 'T', 'P', ':', '/', '/', 'm', 'e', '@', '[', 'A', ':',
      ':', '1', ']', '?', 'x', ' ', 'y'].map chr) .https
    (fun s ↦ congrArg (fun s ↦ decide (s = _)) (toLower_toLower s)) _ (by decide +kernel) .http

end HttpUrl

end PxcCore
