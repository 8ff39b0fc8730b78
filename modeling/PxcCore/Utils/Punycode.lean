import PxcCore.Lib.Bootstring
import PxcCore.Utils.HttpUrl
import PxcCore.Utils.Utf8.Truncate

/-!
# Punycode

`punycode` of `IPAddress.cpp`: the labels of host names as RFC 3492 writes them.
-/

namespace PxcCore.Punycode

open Lib
open Json (chr)
open Utf8 (encode)

/-! ## The function -/

/-- How the function ends other than by returning: `uint32` and `int` arithmetic that does not stay
in range is taken as an error. -/
inductive Fault where
  | utf8 (fault : Utf8.Fault)
  | overflow
  | rounds
deriving DecidableEq

/-- A result of `uint32` arithmetic. -/
def uint32 (x : ℕ) : Except Fault ℕ := if x < 2 ^ 32 then return x else throw .overflow

/-- `static_cast<int>` -/
def int32 (x : ℕ) : Except Fault ℕ := if x < 2 ^ 31 then return x else throw .overflow

/-- `clamp(bias, 1, 26)` -/
def clampBias (bias : ℤ) : ℕ := (max 1 (min bias 26)).toNat

theorem clampBias_bounds (bias : ℤ) : 0 < clampBias bias ∧ clampBias bias ≤ 26 := by
  rw [clampBias]
  omega

/-- `static_cast<char>(digit < 26 ? digit + 'a' : digit - 26 + '0')` -/
def digitChar (digit : ℕ) : UInt8 :=
  UInt8.ofNat (if digit < 26 then digit + 97 else digit - 26 + 48)

/-- The loop that writes `left`. -/
def writeLeft (bias : ℤ) (left : ℕ) : List UInt8 :=
  let t := clampBias (bias + 36)
  if left < t then [UInt8.ofNat (left + 97)]
  else digitChar (t + (left - t) % (36 - t)) :: writeLeft (bias + 36) ((left - t) / (36 - t))
termination_by left
decreasing_by
  have := clampBias_bounds (bias + 36)
  exact (Nat.div_le_self _ _).trans_lt (by omega)

/-- The loop that divides `delta`: the values of `bias` and `delta`. -/
def divideLoop (bias : ℤ) (delta : ℕ) : ℤ × ℕ :=
  if delta > 35 * 13 then divideLoop (bias - 36) (delta / 35) else (bias, delta)
termination_by delta
decreasing_by omega

/-- The update of `bias`. -/
def nextBias (isFirst : Bool) (delta processed : ℕ) : ℤ :=
  let delta := if isFirst then delta / 700 else delta / 2
  let delta := delta + delta / processed
  let (bias, delta) := divideLoop 0 delta
  bias - (36 * delta / (delta + 38) : ℕ)

/-- The variables of the main loop. -/
structure Encoder where
  result : List UInt8
  processed : ℕ
  delta : ℕ := 0
  bias : ℤ := -72
  isFirst : Bool := true
deriving DecidableEq

/-- The next symbol is found: `left` is written, which is `delta`, and the bias is updated. -/
def Encoder.found (e : Encoder) (left : ℕ) : Encoder where
  result := e.result ++ writeLeft e.bias left
  processed := e.processed + 1
  delta := 0
  bias := nextBias e.isFirst left (e.processed + 1)
  isFirst := false

/-- The body of the loop over the codes. -/
def visit (nextN : ℕ) (e : Encoder) (code : ℕ) : Except Fault Encoder := do
  let delta ← if code < nextN then uint32 (e.delta + 1) else pure e.delta
  if code = nextN then do
    let left ← int32 delta
    return e.found left
  else return { e with delta }

/-- The choice of the lowest code that is not processed. -/
def chooseNext (codes : List ℕ) (n : ℕ) : ℕ :=
  codes.foldl (fun nextN code ↦ if code > n ∧ code < nextN then code else nextN) 0x110000

/-- The main loop. -/
def mainLoop (codes : List ℕ) : ℕ → ℕ → Encoder → Except Fault Encoder
  | 0, _, _ => throw .rounds
  | rounds + 1, n, e =>
    if e.processed < codes.length then do
      let nextN := chooseNext codes n
      let delta ← uint32 (e.delta + (nextN - n - 1) * (e.processed + 1))
      let e ← codes.foldlM (visit nextN) { e with delta }
      let delta ← uint32 (e.delta + 1)
      mainLoop codes rounds nextN { e with delta }
    else return e

/-- `punycode`.  There are less rounds of the main loop than codes. -/
def punycode (result part : List UInt8) : Except Fault (List UInt8) := do
  let codes ← (Utf8.codes part.length part).mapError .utf8
  let ascii := codes.filter (· ≤ 127)
  let result := result ++ ascii.map fun code ↦ toLowerChar (UInt8.ofNat code)
  let processed := ascii.length
  let result := if processed > 0 then result ++ [chr '-'] else result
  let e ← mainLoop codes (codes.length + 1) 127 { result, processed }
  return e.result

/-! ## The decoding procedure -/

/-- The parameters of Punycode. -/
def profile : Bootstring where
  base := 36
  tmin := 1
  tmax := 26
  skew := 38
  damp := 700
  initialBias := 72
  initialN := 128
  tmin_pos := by decide
  tmin_le := by decide
  tmax_lt := by decide
  tmin_lt := by decide

/-- The value of a digit. -/
def digitValue (c : UInt8) : Option ℕ :=
  if 97 ≤ c.toNat ∧ c.toNat ≤ 122 then some (c.toNat - 97)
  else if 65 ≤ c.toNat ∧ c.toNat ≤ 90 then some (c.toNat - 65)
  else if 48 ≤ c.toNat ∧ c.toNat ≤ 57 then some (c.toNat - 48 + 26)
  else none

/-- The decoding procedure of RFC 3492: what is before the last delimiter is taken as it is. -/
def decode (label : List UInt8) : Option (List ℕ) :=
  let basic := (label.rdropWhile (· ≠ chr '-')).dropLast
  let extended := if basic = [] then label else label.rtakeWhile (· ≠ chr '-')
  if basic.all (·.toNat ≤ 127) then
    (extended.mapM digitValue).bind (profile.decodeLoop (profile.start (basic.map UInt8.toNat)))
  else none

/-! ## Digits -/

theorem digitValue_digitChar {d : ℕ} (hd : d < 36) : digitValue (digitChar d) = some d := by
  have hall : ∀ d < 36, digitValue (digitChar d) = some d := by decide
  exact hall d hd

theorem mapM_digitValue {digits : List ℕ} (h : ∀ d ∈ digits, d < 36) :
    (digits.map digitChar).mapM digitValue = some digits := by
  induction digits with
  | nil => rfl
  | cons d digits ih =>
    rw [List.map_cons, List.mapM_cons, digitValue_digitChar (h d List.mem_cons_self),
      ih fun d' hd' ↦ h d' (List.mem_cons_of_mem _ hd')]
    rfl

/-- The threshold of the decoder, in numbers. -/
theorem threshold_eq (bias k : ℕ) : profile.threshold bias k =
    if k ≤ bias + 1 then 1 else if k ≥ bias + 26 then 26 else k - bias := rfl

/-- The bias of the code is the position of the digit less the bias of the decoder. -/
theorem clampBias_eq (bias k : ℕ) : clampBias (k - bias) = profile.threshold bias k := by
  rw [threshold_eq, clampBias]
  split_ifs <;> omega

theorem writeLeft_eq (bias k left : ℕ) :
    writeLeft (k - 36 - bias) left = (profile.encodeDelta bias k left).map digitChar := by
  induction k, left using Bootstring.encodeDelta.induct profile bias with
  | case1 k left t hlt =>
    have hclamp : clampBias ((k : ℤ) - 36 - bias + 36) = profile.threshold bias k := by
      rw [← clampBias_eq]
      ring_nf
    have hlt' : left < profile.threshold bias k := hlt
    have hsmall : left < 26 := hlt'.trans_le (hclamp ▸ (clampBias_bounds _).2)
    rw [writeLeft, Bootstring.encodeDelta]
    simp only [hclamp, if_pos hlt', List.map_singleton, digitChar, if_pos hsmall]
  | case2 k left t hlt ih =>
    have hclamp : clampBias ((k : ℤ) - 36 - bias + 36) = profile.threshold bias k := by
      rw [← clampBias_eq]
      ring_nf
    have hnot : ¬left < profile.threshold bias k := hlt
    have hnext : (k : ℤ) - 36 - bias + 36 = ((k + 36 : ℕ) : ℤ) - 36 - bias := by
      rw [Nat.cast_add]
      ring
    rw [writeLeft, Bootstring.encodeDelta]
    simp only [hclamp, if_neg hnot, List.map_cons]
    exact congrArg _ (hnext ▸ ih)

theorem divideLoop_eq (k delta : ℕ) : divideLoop (-k) delta =
    (-((profile.adaptLoop k delta).1 : ℤ), (profile.adaptLoop k delta).2) := by
  induction k, delta using Bootstring.adaptLoop.induct profile with
  | case1 k delta hgt ih =>
    have hgt' : delta > 35 * 13 := hgt
    have hnext : -(k : ℤ) - 36 = -((k + 36 : ℕ) : ℤ) := by
      rw [Nat.cast_add]
      ring
    rw [divideLoop, Bootstring.adaptLoop, if_pos hgt, if_pos hgt', hnext]
    exact ih
  | case2 k delta hle =>
    have hle' : ¬delta > 35 * 13 := hle
    rw [divideLoop, Bootstring.adaptLoop, if_neg hle, if_neg hle']

theorem nextBias_eq (isFirst : Bool) (delta processed : ℕ) :
    nextBias isFirst delta processed = -(profile.adapt delta processed isFirst : ℤ) := by
  have hloop := divideLoop_eq 0
    ((if isFirst then delta / 700 else delta / 2) +
      (if isFirst then delta / 700 else delta / 2) / processed)
  simp only [nextBias, Bootstring.adapt]
  rw [Nat.cast_zero, neg_zero] at hloop
  rw [hloop]
  simp only [Nat.cast_add, neg_add]
  rfl

/-! ## The choice of the next code -/

/-- The fold finds the lowest code that is greater than `n`. -/
theorem foldl_lowest (n : ℕ) (codes : List ℕ) (nextN : ℕ) :
    let r := codes.foldl (fun nextN code ↦ if code > n ∧ code < nextN then code else nextN) nextN
    (r = nextN ∨ r ∈ codes ∧ n < r) ∧ r ≤ nextN ∧ ∀ c ∈ codes, n < c → r ≤ c := by
  induction codes generalizing nextN with
  | nil => exact ⟨.inl rfl, le_rfl, by simp⟩
  | cons code codes ih =>
    rw [List.foldl_cons]
    obtain ⟨hmem, hle, hmin⟩ := ih (if code > n ∧ code < nextN then code else nextN)
    refine ⟨?_, hle.trans ?_, fun c hc hlt ↦ ?_⟩
    · split_ifs at hmem ⊢ with htake
      · rcases hmem with heq | ⟨hmem, hlt⟩
        · refine .inr ⟨?_, ?_⟩
          · rw [heq]
            exact List.mem_cons_self
          · rw [heq]
            exact htake.1
        · exact .inr ⟨List.mem_cons_of_mem _ hmem, hlt⟩
      · exact hmem.imp_right fun h ↦ ⟨List.mem_cons_of_mem _ h.1, h.2⟩
    · split_ifs with htake
      · exact htake.2.le
      · exact le_rfl
    · rcases List.mem_cons.mp hc with rfl | hc
      · refine hle.trans ?_
        split_ifs <;> omega
      · exact hmin c hc hlt

theorem chooseNext_spec {codes : List ℕ} {n : ℕ} (hcodes : ∀ c ∈ codes, c < 0x110000)
    (hmore : ∃ c ∈ codes, n < c) :
    chooseNext codes n ∈ codes ∧ n < chooseNext codes n ∧
      ∀ c ∈ codes, n < c → chooseNext codes n ≤ c := by
  obtain ⟨c, hc, hlt⟩ := hmore
  obtain ⟨hmem, hle, hmin⟩ := foldl_lowest n codes 0x110000
  have hbelow := (hmin c hc hlt).trans_lt (hcodes c hc)
  obtain ⟨hmem, hlt⟩ := hmem.resolve_left hbelow.ne
  exact ⟨hmem, hlt, hmin⟩

/-! ## The main loop -/

theorem uint32_eq {x : ℕ} (h : x < 2 ^ 32) : uint32 x = .ok x := if_pos h

theorem int32_eq {x : ℕ} (h : x < 2 ^ 31) : int32 x = .ok x := if_pos h

theorem insertIdx_length_append (l l' : List ℕ) (a : ℕ) :
    (l ++ l').insertIdx l.length a = l ++ a :: l' := by
  induction l with
  | nil => rfl
  | cons b l ih => exact congrArg (b :: ·) ih

/-- What the encoder `e` has written since the result was `result` takes the decoder from the state
`s₀` to `s`, in which it has inserted `output`. -/
structure Follows (s₀ : Bootstring.State) (result : List UInt8) (output : List ℕ) (e : Encoder)
    (s : Bootstring.State) : Prop where
  reads : ∃ digits, e.result = result ++ digits.map digitChar ∧ (∀ d ∈ digits, d < 36) ∧
    profile.Reads s₀ digits s
  output_eq : s.output = output
  processed_eq : e.processed = output.length
  bias_eq : e.bias = -(s.bias : ℤ)
  isFirst_eq : e.isFirst = (s.i = 0 : Bool)

/-- The distance that `delta` is for: from the state of the decoder to the position `pos` for the
code `m`. -/
def Distance (e : Encoder) (s : Bootstring.State) (m pos : ℕ) : Prop :=
  s.n * (s.output.length + 1) + s.i + e.delta = m * (s.output.length + 1) + pos

variable {s₀ s : Bootstring.State} {result : List UInt8} {output pre rest codes : List ℕ}
  {e : Encoder} {m n code : ℕ}

theorem Follows.withDelta (h : Follows s₀ result output e s) (delta : ℕ) :
    Follows s₀ result output { e with delta } s :=
  ⟨h.reads, h.output_eq, h.processed_eq, h.bias_eq, h.isFirst_eq⟩

/-- There are never more than 1019 codes, so `delta` is far from the limits. -/
theorem mul_bound {m k pos : ℕ} (hm : m < 0x110000) (hk : k < 1020) (hpos : pos ≤ k) :
    m * (k + 1) + pos + 1 < 2 ^ 31 := by
  have : m * (k + 1) ≤ 0x10ffff * 1020 := Nat.mul_le_mul (by omega) (by omega)
  omega

/-- The codes that are processed before `code` is visited. -/
def processed (m : ℕ) (pre rest : List ℕ) : List ℕ :=
  pre.filter (· ≤ m) ++ rest.filter (· < m)

theorem length_processed_le (m : ℕ) (pre rest : List ℕ) :
    (processed m pre rest).length ≤ pre.length + rest.length := by
  rw [processed, List.length_append]
  exact Nat.add_le_add (List.length_filter_le _ _) (List.length_filter_le _ _)

theorem length_filter_le_processed (m : ℕ) (pre rest : List ℕ) :
    (pre.filter (· ≤ m)).length ≤ (processed m pre rest).length := by
  rw [processed, List.length_append]
  exact Nat.le_add_right _ _

/-- The code `m` is inserted at its position. -/
theorem Follows.found {pos : ℕ} (h : Follows s₀ result output e s) (hdist : Distance e s m pos)
    (hpos : pos ≤ s.output.length) : ∃ s',
      Follows s₀ result (s.output.insertIdx pos m) (e.found e.delta) s' ∧
      Distance (e.found e.delta) s' m (pos + 1) := by
  obtain ⟨digits, hresult, hdigits, hreads⟩ := h.reads
  have hinsert := Bootstring.State.insert_eq (P := profile) hpos hdist
  have hwrite : writeLeft e.bias e.delta =
      (profile.encodeDelta s.bias profile.base e.delta).map digitChar := by
    rw [h.bias_eq, ← writeLeft_eq]
    congr 1
    change -(s.bias : ℤ) = ((36 : ℕ) : ℤ) - 36 - s.bias
    norm_num
  refine ⟨s.insert profile (s.i + e.delta), ⟨⟨digits ++
    profile.encodeDelta s.bias profile.base e.delta, ?_, ?_, ?_⟩, ?_, ?_, ?_, ?_⟩, ?_⟩
  · rw [Encoder.found, hresult, hwrite, List.map_append, List.append_assoc]
  · intro d hd
    rcases List.mem_append.mp hd with hd | hd
    · exact hdigits d hd
    · exact Bootstring.lt_base_of_mem_encodeDelta hd
  · exact hreads.append (Bootstring.reads_encodeDelta s e.delta)
  · rw [hinsert]
  · rw [List.length_insertIdx_of_le_length hpos, h.output_eq, Encoder.found, h.processed_eq]
  · rw [hinsert, Encoder.found, nextBias_eq, h.isFirst_eq, h.processed_eq, h.output_eq]
  · rw [hinsert]
    simp [Encoder.found]
  · rw [hinsert]
    simp only [Distance, Encoder.found, List.length_insertIdx_of_le_length hpos]
    ring

/-- A code that is visited is inserted, or counted, or left for later. -/
theorem visit_spec (h : Follows s₀ result (processed m pre (code :: rest)) e s)
    (hdist : Distance e s m (pre.filter (· ≤ m)).length) (hm : m < 0x110000)
    (hlength : pre.length + (code :: rest).length < 1020) :
    ∃ e' s', visit m e code = .ok e' ∧ Follows s₀ result (processed m (pre ++ [code]) rest) e' s' ∧
      Distance e' s' m ((pre ++ [code]).filter (· ≤ m)).length := by
  have hpos : (pre.filter (· ≤ m)).length ≤ s.output.length := by
    rw [h.output_eq]
    exact length_filter_le_processed m pre _
  have hshort : s.output.length < 1020 := by
    rw [h.output_eq]
    exact (length_processed_le m pre _).trans_lt hlength
  have hbound := mul_bound hm hshort hpos
  have hdelta : e.delta + 1 < 2 ^ 31 := by
    rw [Distance] at hdist
    omega
  rcases lt_trichotomy code m with hlt | rfl | hgt
  · refine ⟨{ e with delta := e.delta + 1 }, s, ?_, ?_, ?_⟩
    · rw [visit, if_pos hlt, uint32_eq (by omega), ok_bind]
      exact if_neg hlt.ne
    · have hprocessed : processed m (pre ++ [code]) rest = processed m pre (code :: rest) := by
        simp [processed, hlt, hlt.le]
      rw [hprocessed]
      exact h.withDelta _
    · have hcount : ((pre ++ [code]).filter (· ≤ m)).length = (pre.filter (· ≤ m)).length + 1 := by
        simp [hlt.le]
      rw [Distance] at hdist ⊢
      rw [hcount]
      exact (congrArg (· + 1) hdist)
  · have hprocessed : processed code (pre ++ [code]) rest =
        s.output.insertIdx (pre.filter (· ≤ code)).length code := by
      rw [h.output_eq]
      simp [processed, insertIdx_length_append]
    have hcount : ((pre ++ [code]).filter (· ≤ code)).length =
        (pre.filter (· ≤ code)).length + 1 := by simp
    obtain ⟨s', hfollows, hdist'⟩ := h.found hdist hpos
    refine ⟨e.found e.delta, s', ?_, ?_, ?_⟩
    · rw [visit, if_neg (lt_irrefl _)]
      simp only [pure_eq_ok, ok_bind, if_true]
      rw [int32_eq (by omega), ok_bind]
    · rw [hprocessed]
      exact hfollows
    · rw [hcount]
      exact hdist'
  · refine ⟨e, s, ?_, ?_, ?_⟩
    · rw [visit, if_neg (lt_asymm hgt)]
      simp only [pure_eq_ok, ok_bind, if_neg hgt.ne']
    · have hprocessed : processed m (pre ++ [code]) rest = processed m pre (code :: rest) := by
        simp [processed, not_le.mpr hgt, lt_asymm hgt]
      rw [hprocessed]
      exact h
    · have hcount : (pre ++ [code]).filter (· ≤ m) = pre.filter (· ≤ m) := by
        simp [not_le.mpr hgt]
      rw [hcount]
      exact hdist

/-- The codes are visited one after the other. -/
theorem foldlM_visit (h : Follows s₀ result (processed m pre rest) e s)
    (hdist : Distance e s m (pre.filter (· ≤ m)).length) (hm : m < 0x110000)
    (hlength : pre.length + rest.length < 1020) :
    ∃ e' s', rest.foldlM (visit m) e = .ok e' ∧
      Follows s₀ result ((pre ++ rest).filter (· ≤ m)) e' s' ∧
      Distance e' s' m ((pre ++ rest).filter (· ≤ m)).length := by
  induction rest generalizing pre e s with
  | nil =>
    rw [processed, List.filter_nil, List.append_nil] at h
    exact ⟨e, s, rfl, by rwa [List.append_nil], by rwa [List.append_nil]⟩
  | cons code rest ih =>
    obtain ⟨e₁, s₁, hvisit, h₁, hdist₁⟩ := visit_spec h hdist hm hlength
    rw [List.foldlM_cons, hvisit, ok_bind]
    have hlength₁ : (pre ++ [code]).length + rest.length < 1020 := by
      rw [List.length_append, List.length_singleton]
      rw [List.length_cons] at hlength
      omega
    have hrest := ih h₁ hdist₁ hlength₁
    rwa [List.append_assoc, List.singleton_append] at hrest

theorem length_filter_lt (hlt : n < m) (hmem : m ∈ codes) :
    (codes.filter (· ≤ n)).length < (codes.filter (· ≤ m)).length := by
  have hsublist : (codes.filter (· ≤ n)).Sublist (codes.filter (· ≤ m)) :=
    List.monotone_filter_right _ fun c hc ↦ decide_eq_true ((of_decide_eq_true hc).trans hlt.le)
  refine lt_of_le_of_ne hsublist.length_le fun heq ↦ ?_
  have hmem' : m ∈ codes.filter (· ≤ n) := by
    rw [hsublist.eq_of_length heq]
    exact List.mem_filter.mpr ⟨hmem, decide_eq_true le_rfl⟩
  exact absurd (of_decide_eq_true (List.mem_filter.mp hmem').2) (not_le.mpr hlt)

/-- From one round to the next, the decoder is at the end of the codes up to `n`. -/
theorem mainLoop_spec {rounds : ℕ} (h : Follows s₀ result (codes.filter (· ≤ n)) e s)
    (hdist : Distance e s (n + 1) 0) (hcodes : ∀ c ∈ codes, c < 0x110000)
    (hlength : codes.length < 1020)
    (hrounds : codes.length < rounds + (codes.filter (· ≤ n)).length) :
    ∃ e', mainLoop codes rounds n e = .ok e' ∧ ∃ digits,
      e'.result = result ++ digits.map digitChar ∧ (∀ d ∈ digits, d < 36) ∧
      profile.decodeLoop s₀ digits = some codes := by
  induction rounds generalizing n e s with
  | zero =>
    have := List.length_filter_le (· ≤ n) codes
    omega
  | succ rounds ih =>
    have hcount : e.processed = s.output.length := h.processed_eq.trans (h.output_eq ▸ rfl)
    rw [mainLoop]
    by_cases hmore : e.processed < codes.length
    · rw [if_pos hmore]
      rw [h.processed_eq] at hmore
      have hexists : ∃ c ∈ codes, n < c := by
        by_contra hnone
        push Not at hnone
        rw [List.filter_eq_self.mpr fun c hc ↦ decide_eq_true (hnone c hc)] at hmore
        exact lt_irrefl _ hmore
      obtain ⟨hmem, hlt, hmin⟩ := chooseNext_spec hcodes hexists
      have hm := hcodes _ hmem
      generalize chooseNext codes n = m at hmem hlt hmin hm ⊢
      -- there are no codes between `n` and `m`
      have hprocessed : codes.filter (· ≤ n) = processed m [] codes := by
        refine List.filter_congr fun c hc ↦ ?_
        rw [decide_eq_decide]
        constructor
        · exact fun hle ↦ hle.trans_lt hlt
        · exact fun hlt' ↦ not_lt.mp fun hn ↦ absurd (hmin c hc hn) (not_le.mpr hlt')
      have hshort := (List.length_filter_le (· ≤ n) codes).trans_lt hlength
      have hdist' : Distance { e with delta := e.delta + (m - n - 1) * (s.output.length + 1) } s m
          ([].filter (· ≤ m)).length := by
        have hsplit : m * (s.output.length + 1) =
            (n + 1) * (s.output.length + 1) + (m - n - 1) * (s.output.length + 1) := by
          rw [← Nat.add_mul]
          congr 1
          omega
        rw [Distance] at hdist ⊢
        rw [hsplit]
        simp only [List.filter_nil, List.length_nil] at hdist ⊢
        omega
      have hdelta := mul_bound hm hshort (Nat.zero_le _)
      rw [← h.output_eq] at hdelta
      have hdelta' : e.delta + (m - n - 1) * (s.output.length + 1) < 2 ^ 32 := by
        rw [Distance] at hdist'
        simp only [List.filter_nil, List.length_nil] at hdist'
        omega
      have hlength' : ([] : List ℕ).length + codes.length < 1020 := by
        rwa [List.length_nil, Nat.zero_add]
      obtain ⟨e', s', hfold, h', hdist''⟩ :=
        foldlM_visit (hprocessed ▸ h.withDelta _) hdist' hm hlength'
      rw [List.nil_append] at h' hdist''
      rw [← hcount] at hdelta' hfold
      simp only [uint32_eq hdelta', ok_bind, hfold]
      have hlast : Distance { e' with delta := e'.delta + 1 } s' (m + 1) 0 := by
        rw [Distance] at hdist'' ⊢
        rw [← h'.output_eq] at hdist''
        simp only [Nat.add_mul, Nat.one_mul] at hdist'' ⊢
        omega
      have hshort' : s'.output.length < 1020 := by
        rw [h'.output_eq]
        exact (List.length_filter_le _ _).trans_lt hlength
      have hbound := mul_bound hm hshort' le_rfl
      have hend : e'.delta + 1 < 2 ^ 32 := by
        rw [Distance] at hlast
        simp only [Nat.add_mul, Nat.one_mul] at hlast hbound
        omega
      rw [uint32_eq hend, ok_bind]
      have hmore' := length_filter_lt hlt hmem
      exact ih (h'.withDelta _) hlast (by omega)
    · -- all of the codes are processed
      rw [if_neg hmore]
      rw [h.processed_eq] at hmore
      obtain ⟨digits, hresult, hdigits, hreads⟩ := h.reads
      have hall : codes.filter (· ≤ n) = codes :=
        List.filter_sublist.eq_of_length_le (not_lt.mp hmore)
      refine ⟨e, rfl, digits, hresult, hdigits, ?_⟩
      rw [hreads.decodeLoop_eq, h.output_eq, hall]

/-! ## Lower case -/

/-- The code of a character with ASCII letters in lower case. -/
def lowerCode (code : ℕ) : ℕ :=
  if code ≤ 127 then (toLowerChar (UInt8.ofNat code)).toNat else code

theorem toNat_toLowerChar_le {c : UInt8} (hc : c.toNat ≤ 127) : (toLowerChar c).toNat ≤ 127 := by
  rw [HttpUrl.toNat_toLowerChar]
  split_ifs <;> omega

theorem toNat_ofNat_le {code : ℕ} (h : code ≤ 127) : (UInt8.ofNat code).toNat = code :=
  Utf8.toNat_ofNat_of_lt (by omega)

theorem lowerCode_le_iff (code : ℕ) : lowerCode code ≤ 127 ↔ code ≤ 127 := by
  rw [lowerCode]
  split_ifs with h
  · exact iff_of_true (toNat_toLowerChar_le (by rwa [toNat_ofNat_le h])) h
  · exact Iff.rfl

theorem lowerCode_of_lt {code : ℕ} (h : 127 < code) : lowerCode code = code :=
  if_neg (not_le.mpr h)

/-- The codes of ASCII characters are not told apart from 127 on. -/
theorem lowerCode_lt_iff {k : ℕ} (hk : 127 < k) (code : ℕ) : lowerCode code < k ↔ code < k := by
  rcases Nat.lt_or_ge 127 code with h | h
  · rw [lowerCode_of_lt h]
  · have := (lowerCode_le_iff code).mpr h
    exact iff_of_true (by omega) (by omega)

theorem lowerCode_eq_iff {k : ℕ} (hk : 127 < k) (code : ℕ) : lowerCode code = k ↔ code = k := by
  rcases Nat.lt_or_ge 127 code with h | h
  · rw [lowerCode_of_lt h]
  · have := (lowerCode_le_iff code).mpr h
    exact iff_of_false (by omega) (by omega)

theorem visit_lowerCode (hm : 127 < m) (e : Encoder) (code : ℕ) :
    visit m e (lowerCode code) = visit m e code := by
  simp only [visit, lowerCode_lt_iff hm, lowerCode_eq_iff hm]

theorem chooseNext_lowerCode (hn : 127 ≤ n) (codes : List ℕ) :
    chooseNext (codes.map lowerCode) n = chooseNext codes n := by
  rw [chooseNext, List.foldl_map]
  refine List.foldl_ext _ _ _ fun nextN code _ ↦ ?_
  rcases Nat.lt_or_ge 127 code with h | h
  · rw [lowerCode_of_lt h]
  · have := (lowerCode_le_iff code).mpr h
    rw [if_neg (by omega), if_neg (by omega)]

theorem foldlM_visit_lowerCode (hm : 127 < m) (codes : List ℕ) (e : Encoder) :
    (codes.map lowerCode).foldlM (visit m) e = codes.foldlM (visit m) e := by
  rw [List.foldlM_map]
  simp only [visit_lowerCode hm]

theorem lt_chooseNext (hn : 127 ≤ n) (codes : List ℕ) : 127 < chooseNext codes n := by
  rcases (foldl_lowest n codes 0x110000).1 with h | h
  · rw [chooseNext, h]
    norm_num
  · exact hn.trans_lt h.2

/-- The main loop does not see the case of ASCII letters. -/
theorem mainLoop_lowerCode (rounds : ℕ) (hn : 127 ≤ n) (codes : List ℕ) (e : Encoder) :
    mainLoop (codes.map lowerCode) rounds n e = mainLoop codes rounds n e := by
  induction rounds generalizing n e with
  | zero => rfl
  | succ rounds ih =>
    have hm := lt_chooseNext hn codes
    rw [mainLoop, mainLoop]
    simp only [List.length_map, chooseNext_lowerCode hn, foldlM_visit_lowerCode hm, ih hm.le]

/-- The codes up to 127, as the loop over the characters writes them. -/
theorem filter_lowerCode (codes : List ℕ) : (codes.map lowerCode).filter (· ≤ 127) =
    ((codes.filter (· ≤ 127)).map fun code ↦ toLowerChar (UInt8.ofNat code)).map UInt8.toNat := by
  rw [List.filter_map, List.map_map]
  have hfilter : codes.filter ((fun code ↦ decide (code ≤ 127)) ∘ lowerCode) =
      codes.filter (· ≤ 127) := by
    refine List.filter_congr fun code _ ↦ ?_
    simp only [Function.comp_apply, lowerCode_le_iff]
  rw [hfilter]
  refine List.map_congr_left fun code hcode ↦ ?_
  rw [lowerCode, if_pos (of_decide_eq_true (List.mem_filter.mp hcode).2)]
  rfl

/-! ## Labels -/

/-- The label that consists of a part that is taken as it is and of digits. -/
def assemble (basic : List UInt8) (digits : List ℕ) : List UInt8 :=
  (if basic = [] then [] else basic ++ [chr '-']) ++ digits.map digitChar

theorem digitChar_ne {d : ℕ} (hd : d < 36) : digitChar d ≠ chr '-' := by
  have hall : ∀ d < 36, digitChar d ≠ chr '-' := by decide
  exact hall d hd

/-- The last delimiter is the one in front of the digits. -/
theorem decode_assemble {basic : List UInt8} (hbasic : ∀ c ∈ basic, c.toNat ≤ 127)
    {digits : List ℕ} (hdigits : ∀ d ∈ digits, d < 36) : decode (assemble basic digits) =
      profile.decodeLoop (profile.start (basic.map UInt8.toNat)) digits := by
  have hnone : ∀ c ∈ digits.map digitChar, c ≠ chr '-' := by
    intro c hc
    obtain ⟨d, hd, rfl⟩ := List.mem_map.mp hc
    exact digitChar_ne (hdigits d hd)
  have hsplit : ((assemble basic digits).rdropWhile (· ≠ chr '-')).dropLast = basic ∧
      (if basic = [] then assemble basic digits
        else (assemble basic digits).rtakeWhile (· ≠ chr '-')) = digits.map digitChar := by
    by_cases hnil : basic = []
    · have hdrop : (digits.map digitChar).rdropWhile (· ≠ chr '-') = [] :=
        List.rdropWhile_eq_nil_iff.mpr fun c hc ↦ decide_eq_true (hnone c hc)
      rw [if_pos hnil, assemble, if_pos hnil, List.nil_append, hdrop, hnil]
      exact ⟨rfl, rfl⟩
    · have hreverse : (assemble basic digits).reverse =
          (digits.map digitChar).reverse ++ chr '-' :: basic.reverse := by
        simp [assemble, hnil]
      have hpass : ∀ c ∈ (digits.map digitChar).reverse, (decide (c ≠ chr '-') : Bool) = true :=
        fun c hc ↦ decide_eq_true (hnone c (List.mem_reverse.mp hc))
      rw [if_neg hnil, List.rdropWhile, List.rtakeWhile, hreverse,
        List.dropWhile_append_of_pos hpass, List.takeWhile_append_of_pos hpass,
        List.dropWhile_cons_of_neg (by simp), List.takeWhile_cons_of_neg (by simp)]
      simp
  rw [decode, hsplit.1, hsplit.2, if_pos (List.all_eq_true.mpr fun c hc ↦
    decide_eq_true (hbasic c hc)), mapM_digitValue hdigits]
  rfl

/-- The letters of the codes up to 127. -/
def basicText (codes : List ℕ) : List UInt8 :=
  (codes.filter (· ≤ 127)).map fun code ↦ toLowerChar (UInt8.ofNat code)

theorem le_of_mem_basicText {c : UInt8} (hc : c ∈ basicText codes) : c.toNat ≤ 127 := by
  have hmem := List.mem_map_of_mem (f := UInt8.toNat) hc
  rw [basicText, ← filter_lowerCode] at hmem
  exact of_decide_eq_true (List.mem_filter.mp hmem).2

theorem lowerCode_lt {code : ℕ} (h : code < 0x110000) : lowerCode code < 0x110000 :=
  (lowerCode_lt_iff (by norm_num) code).mpr h

/-- The main loop writes the codes that are not ASCII, from the start on. -/
theorem mainLoop_start (hcodes : ∀ c ∈ codes, c < 0x110000) (hlength : codes.length < 1020)
    (result : List UInt8) : ∃ e digits, mainLoop codes (codes.length + 1) 127
        { result, processed := (codes.filter (· ≤ 127)).length } = .ok e ∧
      e.result = result ++ digits.map digitChar ∧ (∀ d ∈ digits, d < 36) ∧
      profile.decodeLoop (profile.start ((basicText codes).map UInt8.toNat)) digits =
        some (codes.map lowerCode) := by
  have hbasic : (codes.map lowerCode).filter (· ≤ 127) = (basicText codes).map UInt8.toNat :=
    filter_lowerCode codes
  have hcount : (codes.filter (· ≤ 127)).length =
      ((codes.map lowerCode).filter (· ≤ 127)).length := by
    rw [hbasic, List.length_map, basicText, List.length_map]
  have hstart : Follows (profile.start ((basicText codes).map UInt8.toNat)) result
      ((codes.map lowerCode).filter (· ≤ 127))
      { result, processed := (codes.filter (· ≤ 127)).length }
      (profile.start ((basicText codes).map UInt8.toNat)) :=
    ⟨⟨[], (List.append_nil _).symm, by simp, .nil _⟩, hbasic.symm, hcount, rfl, rfl⟩
  have hbelow : ∀ c ∈ codes.map lowerCode, c < 0x110000 := by
    intro c hc
    obtain ⟨code, hcode, rfl⟩ := List.mem_map.mp hc
    exact lowerCode_lt (hcodes code hcode)
  have hrounds : (codes.map lowerCode).length <
      codes.length + 1 + ((codes.map lowerCode).filter (· ≤ 127)).length := by
    rw [List.length_map]
    omega
  obtain ⟨e, hloop, digits, hresult, hdigits, hdecode⟩ := mainLoop_spec hstart
    (by simp [Distance, Bootstring.start, profile]) hbelow (by rwa [List.length_map]) hrounds
  rw [mainLoop_lowerCode _ le_rfl] at hloop
  exact ⟨e, digits, hloop, hresult, hdigits, hdecode⟩

/-- The text in front of the digits. -/
theorem append_basicText (result : List UInt8) (codes : List ℕ) :
    (if (codes.filter (· ≤ 127)).length > 0 then
      (result ++ (codes.filter (· ≤ 127)).map fun code ↦ toLowerChar (UInt8.ofNat code)) ++
        [chr '-']
    else result ++ (codes.filter (· ≤ 127)).map fun code ↦ toLowerChar (UInt8.ofNat code)) =
      result ++ if basicText codes = [] then [] else basicText codes ++ [chr '-'] := by
  rw [← basicText]
  by_cases hnil : codes.filter (· ≤ 127) = []
  · simp [basicText, hnil]
  · have hpos : (codes.filter (· ≤ 127)).length > 0 := List.length_pos_of_ne_nil hnil
    have hbasic : basicText codes ≠ [] := fun h ↦ hnil (List.map_eq_nil_iff.mp h)
    rw [if_pos hpos, if_neg hbasic, List.append_assoc]

/-- What is written for a label. -/
theorem punycode_eq (cs : List Char) (hlong : (encode cs).length < 1020) (result : List UInt8) :
    ∃ digits, punycode result (encode cs) =
        .ok (result ++ assemble (basicText (cs.map Char.toNat)) digits) ∧
      (∀ d ∈ digits, d < 36) ∧
      profile.decodeLoop (profile.start ((basicText (cs.map Char.toNat)).map UInt8.toNat)) digits =
        some ((cs.map Char.toNat).map lowerCode) := by
  have hread : Utf8.codes (encode cs).length (encode cs) = .ok (cs.map Char.toNat) :=
    Utf8.codes_flatMap cs le_rfl
  have hlength : (cs.map Char.toNat).length < 1020 := by
    rw [List.length_map]
    exact (Utf8.length_le_length_encode cs).trans_lt hlong
  have hcodes : ∀ c ∈ cs.map Char.toNat, c < 0x110000 := by
    intro c hc
    obtain ⟨c, -, rfl⟩ := List.mem_map.mp hc
    exact Utf8.toNat_lt c
  obtain ⟨e, digits, hloop, hresult, hdigits, hdecode⟩ := mainLoop_start hcodes hlength
    (result ++ if basicText (cs.map Char.toNat) = [] then [] else
      basicText (cs.map Char.toNat) ++ [chr '-'])
  refine ⟨digits, ?_, hdigits, hdecode⟩
  rw [punycode, hread]
  simp only [mapError_ok, ok_bind, ← append_basicText] at hloop ⊢
  rw [hloop, ok_bind, hresult, assemble, List.append_assoc]
  rfl

/-- Every label is decoded to its characters, with ASCII letters in lower case. -/
theorem punycode_decodes {part : List UInt8} (hpart : Utf8.Valid part) (hlong : part.length < 1020)
    (result : List UInt8) : ∃ cs : List Char, part = encode cs ∧
      ∃ out, punycode result part = .ok (result ++ out) ∧
        decode out = some (cs.map fun c ↦ lowerCode c.toNat) := by
  obtain ⟨cs, rfl⟩ := hpart
  obtain ⟨digits, hpunycode, hdigits, hdecode⟩ := punycode_eq cs hlong result
  refine ⟨cs, rfl, _, hpunycode, ?_⟩
  rw [decode_assemble (fun c ↦ le_of_mem_basicText) hdigits, hdecode, List.map_map]
  rfl

theorem punycode_decodes_two : ∃ cs : List Char, [0x42, 0xc3, 0xa9] = encode cs ∧
    ∃ out, punycode [] [0x42, 0xc3, 0xa9] = .ok ([] ++ out) ∧
      decode out = some (cs.map fun c ↦ lowerCode c.toNat) :=
  punycode_decodes ⟨['B', 'é'], by decide⟩ (by decide) []

example : punycode [] (encode ['b', 'ü', 'c', 'h', 'e', 'r']) =
    .ok (['b', 'c', 'h', 'e', 'r', '-', 'k', 'v', 'a'].map chr) := by
  decide +kernel

end PxcCore.Punycode
