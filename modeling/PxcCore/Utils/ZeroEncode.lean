import Mathlib

/-!
# Counted runs

`zero_encode`, `zero_decode`, `zero_one_encode` and `zero_one_decode` of `misc.cpp`.  A run of a
byte that is counted is written as pieces of at most 250: the byte, and behind it how often it
comes.
-/

namespace PxcCore.ZeroEncode

/-! ## Definitions -/

/-- The inner loop of the encoders: how many bytes of the run of `c` are in the piece, of which
`cnt` are counted and `data` is behind them. -/
def countRun (c : UInt8) : ℕ → List UInt8 → ℕ
  | cnt, [] => cnt
  | cnt, x :: data => if cnt < 250 ∧ x = c then countRun c (cnt + 1) data else cnt

/-- The loop of the encoders, which differ in the bytes that are counted. -/
def encodeRuns (isCounted : UInt8 → Bool) : List UInt8 → List UInt8
  | [] => []
  | c :: data =>
    if isCounted c then
      let cnt := countRun c 1 data
      c :: UInt8.ofNat cnt :: encodeRuns isCounted (data.drop (cnt - 1))
    else c :: encodeRuns isCounted data
termination_by data => data.length
decreasing_by
  · rw [List.length_drop, List.length_cons]
    omega
  · exact Nat.lt_succ_self _

/-- The loop of the decoders. -/
def decodeRuns (isCounted : UInt8 → Bool) : List UInt8 → List UInt8
  | [] => []
  | [c] => [c]
  | c :: cnt :: data =>
    if isCounted c then List.replicate cnt.toNat c ++ decodeRuns isCounted data
    else c :: decodeRuns isCounted (cnt :: data)

/-- `zero_encode` -/
def zeroEncode (data : List UInt8) : List UInt8 := encodeRuns (· = 0) data

/-- `zero_decode` -/
def zeroDecode (data : List UInt8) : List UInt8 := decodeRuns (· = 0) data

/-- `zero_one_encode` -/
def zeroOneEncode (data : List UInt8) : List UInt8 := encodeRuns (fun c ↦ c = 0 ∨ c = 0xff) data

/-- `zero_one_decode` -/
def zeroOneDecode (data : List UInt8) : List UInt8 := decodeRuns (fun c ↦ c = 0 ∨ c = 0xff) data

/-! ## One piece of a run -/

variable {isCounted : UInt8 → Bool} {c : UInt8} {data : List UInt8}

/-- A piece is a run, and its length fits into a byte. -/
theorem countRun_spec (c : UInt8) {cnt : ℕ} (hcnt : cnt ≤ 250) (data : List UInt8) :
    ∃ k, countRun c cnt data = cnt + k ∧ cnt + k ≤ 250 ∧ data.take k = List.replicate k c := by
  induction data generalizing cnt with
  | nil => exact ⟨0, rfl, hcnt, rfl⟩
  | cons x data ih =>
    rw [countRun]
    split_ifs with h
    · obtain ⟨hlt, rfl⟩ := h
      obtain ⟨k, hcount, hle, htake⟩ := ih hlt
      refine ⟨k + 1, ?_, ?_, ?_⟩
      · rw [hcount, Nat.succ_add_eq_add_succ]
      · omega
      · rw [List.take_succ_cons, htake, List.replicate_succ]
    · exact ⟨0, rfl, hcnt, rfl⟩

/-- The bytes of a piece and what is behind it. -/
theorem countRun_append (c : UInt8) (data : List UInt8) :
    List.replicate (countRun c 1 data) c ++ data.drop (countRun c 1 data - 1) = c :: data := by
  obtain ⟨k, hcount, -, htake⟩ := countRun_spec c (show 1 ≤ 250 by omega) data
  rw [hcount, Nat.add_sub_cancel_left, Nat.add_comm, List.replicate_succ, ← htake, List.cons_append,
    List.take_append_drop]

theorem toNat_countRun (c : UInt8) (data : List UInt8) :
    (UInt8.ofNat (countRun c 1 data)).toNat = countRun c 1 data := by
  obtain ⟨k, hcount, hle, -⟩ := countRun_spec c (show 1 ≤ 250 by omega) data
  apply UInt8.toNat_ofNat_of_lt'
  rw [hcount, UInt8.size]
  omega

/-! ## Round trip -/

/-- A counted byte is followed by its count, so a decoder never takes a count for data. -/
theorem decodeRuns_counted (hc : isCounted c) (cnt : UInt8) (data : List UInt8) :
    decodeRuns isCounted (c :: cnt :: data) =
      List.replicate cnt.toNat c ++ decodeRuns isCounted data := by
  rw [decodeRuns, if_pos hc]

theorem decodeRuns_other (hc : ¬isCounted c) (data : List UInt8) :
    decodeRuns isCounted (c :: data) = c :: decodeRuns isCounted data := by
  cases data with
  | nil => rfl
  | cons cnt data => rw [decodeRuns, if_neg hc]

/-- What was encoded is decoded, whatever the bytes that are counted. -/
theorem decodeRuns_encodeRuns (isCounted : UInt8 → Bool) (data : List UInt8) :
    decodeRuns isCounted (encodeRuns isCounted data) = data := by
  induction data using encodeRuns.induct isCounted with
  | case1 => rw [encodeRuns, decodeRuns]
  | case2 c data hc cnt ih =>
    rw [encodeRuns, if_pos hc, decodeRuns_counted hc, ih, toNat_countRun]
    exact countRun_append c data
  | case3 c data hc ih => rw [encodeRuns, if_neg hc, decodeRuns_other hc, ih]

/-- Both pairs of functions are inverse to each other, for runs of any length. -/
theorem zero_round_trip (x : List UInt8) :
    zeroDecode (zeroEncode x) = x ∧ zeroOneDecode (zeroOneEncode x) = x :=
  ⟨decodeRuns_encodeRuns _ x, decodeRuns_encodeRuns _ x⟩

end PxcCore.ZeroEncode
