import PxcCore.Utils.HttpUrl

/-!
# The parts of a URL

What `parse_url` lets through as user information and as a host, and which characters
`check_url_part` looks at.  The user information in front of an IPv6 host is not checked.
-/

namespace PxcCore.HttpUrl

open Lib
open Json (chr Parser)

/-! ## Well-formed parts -/

/-- Only allowed characters, complete percent escapes and bytes from 128 on. -/
inductive WellFormedPart (allowColon : Bool) : List UInt8 → Prop where
  | nil : WellFormedPart allowColon []
  | allowed {c : UInt8} {part : List UInt8} : isAllowed allowColon c →
    WellFormedPart allowColon part → WellFormedPart allowColon (c :: part)
  | escape {c₁ c₂ : UInt8} {part : List UInt8} : isHexDigit c₁ → isHexDigit c₂ →
    WellFormedPart allowColon part → WellFormedPart allowColon (chr '%' :: c₁ :: c₂ :: part)
  | high {c : UInt8} {part : List UInt8} : 128 ≤ c →
    WellFormedPart allowColon part → WellFormedPart allowColon (c :: part)

/-- An IPv6 address in brackets. -/
def WellFormedIpv6 (host : List UInt8) : Prop :=
  ∃ address, host = chr '[' :: address ++ [chr ']'] ∧ ∀ c ∈ address, isIpv6Char c

section Check

variable {name : String} {allowColon : Bool} {part : List UInt8}

@[simp] theorem percent_not_allowed : isAllowed allowColon (chr '%') = false := by
  cases allowColon <;> decide

theorem wellFormedPart_of_check (h : checkUrlPart name allowColon part = .ok ()) :
    WellFormedPart allowColon part := by
  fun_induction checkUrlPart name allowColon part with
  | case1 => exact .nil
  | case2 c part hc ih => exact .allowed hc (ih h)
  | case3 c₁ c₂ part hhex _ ih => exact .escape hhex.1 hhex.2 (ih h)
  | case4 => cases h
  | case5 => cases h
  | case6 c part _ _ hc ih => exact .high hc (ih h)
  | case7 => cases h

theorem check_of_wellFormedPart (h : WellFormedPart allowColon part) :
    checkUrlPart name allowColon part = .ok () := by
  induction h with
  | nil => rfl
  | allowed hc _ ih => rw [checkUrlPart.eq_def]; simpa [hc] using ih
  | @escape c₁ c₂ part h₁ h₂ _ ih =>
    rw [checkUrlPart.eq_def]
    simpa [h₁, h₂] using ih
  | @high c part hc _ ih =>
    have hne : c ≠ chr '%' := by
      rintro rfl
      exact absurd hc (by decide)
    rw [checkUrlPart.eq_def]
    by_cases hallowed : isAllowed allowColon c <;> simpa [hallowed, hne, hc] using ih

theorem check_iff_wellFormedPart :
    checkUrlPart name allowColon part = .ok () ↔ WellFormedPart allowColon part :=
  ⟨wellFormedPart_of_check, check_of_wellFormedPart⟩

end Check

/-! ## The characters that are looked at -/

/-- `check_url_part`, as a loop over the characters of the part and what is behind it: the result,
and the indices of the characters that are looked at. -/
def checkLoop (name : String) (allowColon : Bool) (text : ℕ → UInt8) (size i : ℕ) :
    Except String Unit × List ℕ :=
  if i < size then
    if isAllowed allowColon (text i) then
      let (res, looked) := checkLoop name allowColon text size (i + 1)
      (res, i :: looked)
    else if text i = chr '%' then
      if isHexDigit (text (i + 1)) then
        if isHexDigit (text (i + 2)) then
          let (res, looked) := checkLoop name allowColon text size (i + 3)
          (res, i :: (i + 1) :: (i + 2) :: looked)
        else (.error ("Wrong percent-encoded symbol in URL " ++ name), [i, i + 1, i + 2])
      else (.error ("Wrong percent-encoded symbol in URL " ++ name), [i, i + 1])
    else if text i ≥ 128 then
      let (res, looked) := checkLoop name allowColon text size (i + 1)
      (res, i :: looked)
    else (.error ("Disallowed character in URL " ++ name), [i])
  else (.ok (), [])
termination_by size - i

section Loop

variable {name : String} {allowColon : Bool} {text : ℕ → UInt8} {size i : ℕ}

/-- The characters from `i` on. -/
def charactersFrom (text : ℕ → UInt8) (size i : ℕ) : List UInt8 :=
  (List.range' i (size - i)).map text

theorem charactersFrom_cons (h : i < size) :
    charactersFrom text size i = text i :: charactersFrom text size (i + 1) := by
  rw [charactersFrom, show size - i = size - (i + 1) + 1 by omega, List.range'_succ]
  rfl

theorem charactersFrom_end (h : size ≤ i) : charactersFrom text size i = [] := by
  rw [charactersFrom, Nat.sub_eq_zero_of_le h]
  rfl

theorem lt_size_of_digit (hle : i ≤ size) (hend : isHexDigit (text size) = false)
    (h : isHexDigit (text i)) : i < size := by
  refine lt_of_le_of_ne hle fun heq ↦ ?_
  rw [heq, hend] at h
  cases h

/-- What is behind the part is no digit, and so ends an escape that is not complete. -/
theorem checkLoop_fst (hend : isHexDigit (text size) = false) :
    (checkLoop name allowColon text size i).1 =
      checkUrlPart name allowColon (charactersFrom text size i) := by
  fun_induction checkLoop name allowColon text size i with
  | case1 i hi hc res looked hloop ih =>
    rw [charactersFrom_cons hi, checkUrlPart.eq_def]
    simpa [hc, hloop] using ih
  | case2 i hi hc hpercent h₁ h₂ res looked hloop ih =>
    have hi₁ := lt_size_of_digit (by omega) hend h₁
    have hi₂ := lt_size_of_digit (by omega) hend h₂
    rw [charactersFrom_cons hi, charactersFrom_cons hi₁, charactersFrom_cons hi₂,
      checkUrlPart.eq_def]
    simpa [hc, hpercent, h₁, h₂, hloop] using ih
  | case3 i hi hc hpercent h₁ h₂ =>
    have hi₁ := lt_size_of_digit (by omega) hend h₁
    rw [charactersFrom_cons hi, charactersFrom_cons hi₁, checkUrlPart.eq_def]
    rcases lt_or_ge (i + 2) size with hi₂ | hi₂
    · simp [charactersFrom_cons hi₂, hpercent, h₂]
    · simp [charactersFrom_end hi₂, hpercent]
  | case4 i hi hc hpercent h₁ =>
    rw [charactersFrom_cons hi, checkUrlPart.eq_def]
    rcases lt_or_ge (i + 1) size with hi₁ | hi₁
    · rcases lt_or_ge (i + 2) size with hi₂ | hi₂
      · simp [charactersFrom_cons hi₁, charactersFrom_cons hi₂, hpercent, h₁]
      · simp [charactersFrom_cons hi₁, charactersFrom_end hi₂, hpercent]
    · simp [charactersFrom_end hi₁, hpercent]
  | case5 i hi hc hpercent hhigh res looked hloop ih =>
    rw [charactersFrom_cons hi, checkUrlPart.eq_def]
    simpa [hc, hpercent, hhigh, hloop] using ih
  | case6 i hi hc hpercent hhigh =>
    rw [charactersFrom_cons hi, checkUrlPart.eq_def]
    simp [hc, hpercent, hhigh]
  | case7 i hi =>
    rw [charactersFrom_end (not_lt.mp hi)]
    rfl

theorem lt_of_mem_checkLoop (hend : isHexDigit (text size) = false)
    (h : (checkLoop name allowColon text size i).1 = .ok ()) :
    ∀ k ∈ (checkLoop name allowColon text size i).2, k < size := by
  fun_induction checkLoop name allowColon text size i with
  | case1 i hi hc res looked hloop ih =>
    rw [hloop] at ih
    exact List.forall_mem_cons.mpr ⟨hi, ih h⟩
  | case2 i hi hc hpercent h₁ h₂ res looked hloop ih =>
    have hi₁ := lt_size_of_digit (by omega) hend h₁
    have hi₂ := lt_size_of_digit (by omega) hend h₂
    rw [hloop] at ih
    simp only [List.forall_mem_cons]
    exact ⟨hi, hi₁, hi₂, ih h⟩
  | case3 => cases h
  | case4 => cases h
  | case5 i hi hc hpercent hhigh res looked hloop ih =>
    rw [hloop] at ih
    exact List.forall_mem_cons.mpr ⟨hi, ih h⟩
  | case6 => cases h
  | case7 => exact fun k hk ↦ absurd hk List.not_mem_nil

end Loop

/-- The characters at which `check_url_part` looks in a part with this character behind it. -/
def lookedAt (allowColon : Bool) (part : List UInt8) (next : UInt8) : List ℕ :=
  (checkLoop "" allowColon (fun i ↦ (part ++ [next]).getD i 0) part.length 0).2

theorem lookedAt_lt {allowColon : Bool} {part : List UInt8} {next : UInt8}
    (hnext : isHexDigit next = false) (h : WellFormedPart allowColon part) :
    ∀ k ∈ lookedAt allowColon part next, k < part.length := by
  have hend : isHexDigit ((part ++ [next]).getD part.length 0) = false := by simpa using hnext
  have hall : charactersFrom (fun i ↦ (part ++ [next]).getD i 0) part.length 0 = part := by
    refine List.ext_getElem (by simp [charactersFrom]) fun k hk hk' ↦ ?_
    simp [charactersFrom, List.getElem?_append_left hk', List.getElem?_eq_getElem hk']
  refine lt_of_mem_checkLoop hend ?_
  rw [checkLoop_fst hend, hall, check_of_wellFormedPart h]

/-! ## Accepted URLs -/

section Accepted

variable {inetPton : List UInt8 → Bool} {url : List UInt8} {defaultProtocol : Protocol}

/-- The user information and the host of a URL, as `parse_url` cuts them out of it. -/
def userinfoHost (url : List UInt8) (defaultProtocol : Protocol) :
    Except String (List UInt8 × List UInt8) := do
  let (_, parser) ← parseProtocol url defaultProtocol
  let (userinfoHostPort, _) := parser.readTillNofail (['/', '?', '#'].map chr)
  return splitUserinfo (splitPort userinfoHostPort).1

/-- The parts of an accepted URL are well formed, and no character behind a part has been looked at.
Behind the user information is an `@`, and behind the host a zero byte. -/
structure PartsSafe (u : HttpUrl) : Prop where
  userinfo : WellFormedPart true u.userinfo
  host : if u.isIpv6 then WellFormedIpv6 u.host else WellFormedPart false u.host
  looked : u.isIpv6 = false → (∀ i ∈ lookedAt false u.host 0, i < u.host.length) ∧
    ∀ i ∈ lookedAt true u.userinfo (chr '@'), i < u.userinfo.length

theorem userinfoHost_of_parseUrl {u : HttpUrl}
    (h : parseUrl inetPton url defaultProtocol = .ok u) :
    ∃ host, userinfoHost url defaultProtocol = .ok (u.userinfo, host) ∧ u.host = toLower host ∧
      u.isIpv6 = isBracketed host ∧ checkHost u.isIpv6 u.host u.userinfo = .ok () := by
  obtain ⟨protocol, parser, userinfoHostPort, rest, hostPart, port, userinfo, host, hprotocol,
    hread, hport, hsplit, -, -, -, -, hcheck, rfl⟩ := exists_of_parseUrl h
  refine ⟨host, ?_, rfl, rfl, hcheck⟩
  rw [userinfoHost, hprotocol, ok_bind]
  simp only [hread, hport, hsplit, pure_eq_ok]

theorem wellFormedIpv6_iff {host : List UInt8} (h : isBracketed host) :
    WellFormedIpv6 host ↔ (host.drop 1).dropLast.all isIpv6Char := by
  rw [isBracketed, decide_eq_true_iff] at h
  obtain ⟨address, rfl⟩ : ∃ address, host = chr '[' :: address ++ [chr ']'] := by
    obtain ⟨front, rfl⟩ := List.getLast?_eq_some_iff.1 h.2
    cases front with
    | nil => exact absurd h.1 (by decide)
    | cons c address => exact ⟨address, by simpa using h.1⟩
  simp [WellFormedIpv6]

/-- The parts of an accepted URL are safe, unless it has an IPv6 host and user information that
would not have passed the check. -/
theorem partsSafe_iff {u : HttpUrl} (h : parseUrl inetPton url defaultProtocol = .ok u) :
    PartsSafe u ↔ ∀ userinfo host, userinfoHost url defaultProtocol = .ok (userinfo, host) →
      isBracketed host → checkUrlPart "userinfo" true userinfo = .ok () := by
  obtain ⟨host, hparts, hhost, hipv6, hcheck⟩ := userinfoHost_of_parseUrl h
  constructor
  · intro hsafe userinfo host' hparts' _
    obtain ⟨rfl, rfl⟩ : u.userinfo = userinfo ∧ host = host' := by
      simpa [hparts] using hparts'
    exact check_of_wellFormedPart hsafe.userinfo
  · intro hcond
    have hcond := hcond _ _ hparts
    cases hbracketed : isBracketed host with
    | true =>
      have huserinfo := wellFormedPart_of_check (hcond hbracketed)
      rw [hbracketed] at hipv6
      rw [checkHost, if_pos hipv6] at hcheck
      split_ifs at hcheck with hall
      refine ⟨huserinfo, ?_, fun hnot ↦ by simp [hipv6] at hnot⟩
      rw [if_pos hipv6, wellFormedIpv6_iff]
      · exact hall
      · rw [hhost, isBracketed_toLower, hbracketed]
    | false =>
      rw [hbracketed] at hipv6
      rw [checkHost, hipv6, if_neg Bool.false_ne_true] at hcheck
      obtain ⟨_, hhost', huserinfo⟩ := bind_eq_ok.1 hcheck
      have hhost' := wellFormedPart_of_check hhost'
      have huserinfo := wellFormedPart_of_check huserinfo
      refine ⟨huserinfo, by rw [if_neg (by simp [hipv6])]; exact hhost', fun _ ↦ ⟨?_, ?_⟩⟩
      · exact lookedAt_lt (by decide) hhost'
      · exact lookedAt_lt (by decide) huserinfo

theorem not_wellFormedPart_blank : ¬WellFormedPart true (['a', ' ', 'b'].map chr) := by
  intro h
  have hcheck : checkUrlPart "userinfo" true (['a', ' ', 'b'].map chr) ≠ .ok () := by
    decide +kernel
  exact hcheck (check_of_wellFormedPart h)

/-- `http://a b@[a::1]` is accepted, with a blank in the user information. -/
theorem partsSafe_fails : ∃ u, parseUrl inetPtonOne
    (['h', 't', 't', 'p', ':', '/', '/', 'a', ' ', 'b', '@', '[', 'a', ':', ':', '1', ']'].map chr)
      .http = .ok u ∧ ¬PartsSafe u :=
  ⟨⟨.http, ['a', ' ', 'b'].map chr, ['[', 'a', ':', ':', '1', ']'].map chr, true, 0, 80, [chr '/']⟩,
    by decide +kernel, fun h ↦ not_wellFormedPart_blank h.userinfo⟩

/-- `a:b@c%41` has a name as its host. -/
theorem partsSafe_name : PartsSafe ⟨.https, ['a', ':', 'b'].map chr, ['c', '%', '4', '1'].map chr,
    false, 0, 443, [chr '/']⟩ := by
  have hparts : userinfoHost (['a', ':', 'b', '@', 'c', '%', '4', '1'].map chr) .https =
      .ok (['a', ':', 'b'].map chr, ['c', '%', '4', '1'].map chr) := by
    decide +kernel
  refine (@partsSafe_iff inetPtonOne (['a', ':', 'b', '@', 'c', '%', '4', '1'].map chr) .https _
    (by decide +kernel)).2 fun userinfo host h hbracketed ↦ ?_
  rw [hparts] at h
  cases h
  exact absurd hbracketed (by decide)

end Accepted

end PxcCore.HttpUrl
