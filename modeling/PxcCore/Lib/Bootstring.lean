import Mathlib

/-!
# Bootstring

The decoding procedure of RFC 3492 for any parameters, over unbounded integers: code points are
inserted into a list in ascending order, and the gaps between the insertions are written as integers
of variable length.
-/

namespace PxcCore.Lib

/-- The parameters of a profile. -/
structure Bootstring where
  base : ℕ
  tmin : ℕ
  tmax : ℕ
  skew : ℕ
  damp : ℕ
  initialBias : ℕ
  initialN : ℕ
  tmin_pos : 0 < tmin
  tmin_le : tmin ≤ tmax
  tmax_lt : tmax < base
  tmin_lt : tmin + 1 < base

namespace Bootstring

variable (P : Bootstring)

/-! ## Integers of variable length -/

/-- The threshold of the digit at `k`. -/
def threshold (bias k : ℕ) : ℕ :=
  if k ≤ bias + P.tmin then P.tmin else if k ≥ bias + P.tmax then P.tmax else k - bias

variable {P} in
theorem threshold_bounds (bias k : ℕ) : 0 < P.threshold bias k ∧ P.threshold bias k < P.base := by
  have := P.tmin_pos
  have := P.tmin_le
  have := P.tmax_lt
  rw [threshold]
  split_ifs <;> omega

/-- The digits of `q`. -/
def encodeDelta (bias k q : ℕ) : List ℕ :=
  let t := P.threshold bias k
  if q < t then [q]
  else (t + (q - t) % (P.base - t)) :: encodeDelta bias (k + P.base) ((q - t) / (P.base - t))
termination_by q
decreasing_by
  have hpos := (P.threshold_bounds bias k).1
  exact (Nat.div_le_self _ _).trans_lt (by omega)

/-- The digits are read up to the first one that is below its threshold. -/
def decodeDelta (bias : ℕ) : ℕ → ℕ → ℕ → List ℕ → Option (ℕ × List ℕ)
  | _, _, _, [] => none
  | k, w, i, digit :: digits =>
    let i := i + digit * w
    let t := P.threshold bias k
    if digit < t then some (i, digits)
    else decodeDelta bias (k + P.base) (w * (P.base - t)) i digits

variable {P}

theorem encodeDelta_ne_nil (bias k q : ℕ) : P.encodeDelta bias k q ≠ [] := by
  rw [encodeDelta]
  split_ifs <;> simp

theorem lt_base_of_mem_encodeDelta {bias k q d : ℕ} (h : d ∈ P.encodeDelta bias k q) :
    d < P.base := by
  induction k, q using encodeDelta.induct P bias with
  | case1 k q t hlt =>
    rw [encodeDelta, if_pos hlt, List.mem_singleton] at h
    exact h ▸ hlt.trans (P.threshold_bounds bias k).2
  | case2 k q t hlt ih =>
    rw [encodeDelta, if_neg hlt, List.mem_cons] at h
    rcases h with rfl | h
    · have hbase := (P.threshold_bounds bias k).2
      have hmod := Nat.mod_lt (q - P.threshold bias k) (Nat.sub_pos_of_lt hbase)
      omega
    · exact ih h

/-- What was written is read. -/
theorem decodeDelta_encodeDelta (bias k w i q : ℕ) (digits : List ℕ) :
    P.decodeDelta bias k w i (P.encodeDelta bias k q ++ digits) = some (i + q * w, digits) := by
  induction k, q using encodeDelta.induct P bias generalizing w i with
  | case1 k q t hlt =>
    rw [encodeDelta, if_pos hlt, List.singleton_append, decodeDelta, if_pos hlt]
  | case2 k q t hlt ih =>
    have hnot : ¬t + (q - t) % (P.base - t) < t := by omega
    rw [encodeDelta, if_neg hlt, List.cons_append, decodeDelta, if_neg hnot, ih]
    -- the first digit and the rest of the number
    have hsplit : t + (q - t) % (P.base - t) + (P.base - t) * ((q - t) / (P.base - t)) = q := by
      rw [Nat.add_assoc, Nat.mod_add_div, Nat.add_sub_cancel' (Nat.le_of_not_lt hlt)]
    refine congrArg (fun x ↦ some (x, digits)) ?_
    calc i + (t + (q - t) % (P.base - t)) * w + (q - t) / (P.base - t) * (w * (P.base - t))
        = i + (t + (q - t) % (P.base - t) + (P.base - t) * ((q - t) / (P.base - t))) * w := by ring
      _ = i + q * w := by rw [hsplit]

theorem length_decodeDelta {bias k w i j : ℕ} {digits rest : List ℕ}
    (h : P.decodeDelta bias k w i digits = some (j, rest)) : rest.length < digits.length := by
  induction digits generalizing k w i with
  | nil => simp [decodeDelta] at h
  | cons digit digits ih =>
    rw [decodeDelta] at h
    split_ifs at h
    · obtain ⟨-, rfl⟩ := Prod.mk.inj (Option.some.inj h)
      exact Nat.lt_succ_self _
    · exact (ih h).trans (Nat.lt_succ_self _)

/-! ## The bias -/

variable (P)

/-- The loop of `adapt`. -/
def adaptLoop (k delta : ℕ) : ℕ × ℕ :=
  if delta > (P.base - P.tmin) * P.tmax / 2 then
    adaptLoop (k + P.base) (delta / (P.base - P.tmin))
  else (k, delta)
termination_by delta
decreasing_by
  have := P.tmin_lt
  exact Nat.div_lt_self (by omega) (by omega)

/-- The bias for the next integer. -/
def adapt (delta numPoints : ℕ) (firstTime : Bool) : ℕ :=
  let delta := if firstTime then delta / P.damp else delta / 2
  let delta := delta + delta / numPoints
  let (k, delta) := P.adaptLoop 0 delta
  k + (P.base - P.tmin + 1) * delta / (delta + P.skew)

/-! ## Decoding -/

/-- The variables of the decoding procedure. -/
@[ext] structure State where
  n : ℕ
  i : ℕ
  bias : ℕ
  output : List ℕ

/-- The state behind the basic code points. -/
def start (basic : List ℕ) : State := ⟨P.initialN, 0, P.initialBias, basic⟩

variable {P} in
/-- The insertion of a code point, for the new value of `i`. -/
def State.insert (P : Bootstring) (s : State) (i : ℕ) : State :=
  let length := s.output.length + 1
  let n := s.n + i / length
  ⟨n, i % length + 1, P.adapt (i - s.i) length (s.i = 0), s.output.insertIdx (i % length) n⟩

/-- The main loop of the decoding procedure. -/
def decodeLoop (s : State) (digits : List ℕ) : Option (List ℕ) :=
  if digits = [] then some s.output
  else
    match _h : P.decodeDelta s.bias P.base 1 s.i digits with
    | none => none
    | some (i, rest) => decodeLoop (s.insert P i) rest
termination_by digits.length
decreasing_by exact length_decodeDelta _h

variable {P}

/-- The decoder is in the state `s'` when it has read these digits from the state `s` on. -/
def Reads (P : Bootstring) (s : State) (digits : List ℕ) (s' : State) : Prop :=
  ∀ rest, P.decodeLoop s (digits ++ rest) = P.decodeLoop s' rest

theorem Reads.nil (s : State) : P.Reads s [] s := fun _ ↦ rfl

theorem Reads.append {s s' s'' : State} {digits digits' : List ℕ} (h : P.Reads s digits s')
    (h' : P.Reads s' digits' s'') : P.Reads s (digits ++ digits') s'' := fun rest ↦ by
  rw [List.append_assoc, h, h']

/-- An integer is an insertion. -/
theorem reads_encodeDelta (s : State) (delta : ℕ) :
    P.Reads s (P.encodeDelta s.bias P.base delta) (s.insert P (s.i + delta)) := by
  intro rest
  have hne : P.encodeDelta s.bias P.base delta ++ rest ≠ [] := fun h ↦
    encodeDelta_ne_nil _ _ _ (List.append_eq_nil_iff.mp h).1
  have hread : P.decodeDelta s.bias P.base 1 s.i (P.encodeDelta s.bias P.base delta ++ rest) =
      some (s.i + delta, rest) := by
    rw [decodeDelta_encodeDelta, Nat.mul_one]
  rw [decodeLoop, if_neg hne]
  split
  · rename_i hnone
    rw [hread] at hnone
    cases hnone
  · rename_i i rest' hsome
    rw [hread] at hsome
    obtain ⟨rfl, rfl⟩ := Prod.mk.inj (Option.some.inj hsome)
    rfl

/-- At the end of the digits, the output is complete. -/
theorem Reads.decodeLoop_eq {s s' : State} {digits : List ℕ} (h : P.Reads s digits s') :
    P.decodeLoop s digits = some s'.output := by
  have hend := h []
  rwa [List.append_nil, decodeLoop.eq_def P s', if_pos rfl] at hend

/-- The insertion of `m` at a position of the output, from the distance between the two states in
the order of the code points and the positions. -/
theorem State.insert_eq {s : State} {delta m pos : ℕ} (hpos : pos ≤ s.output.length)
    (h : s.n * (s.output.length + 1) + s.i + delta = m * (s.output.length + 1) + pos) :
    s.insert P (s.i + delta) = ⟨m, pos + 1, P.adapt delta (s.output.length + 1) (s.i = 0),
      s.output.insertIdx pos m⟩ := by
  have hlt : pos < s.output.length + 1 := Nat.lt_succ_of_le hpos
  have hsum : s.i + delta + (s.output.length + 1) * s.n = pos + (s.output.length + 1) * m := by
    linarith
  have hmod : (s.i + delta) % (s.output.length + 1) = pos := by
    rw [← Nat.add_mul_mod_self_left (s.i + delta) _ s.n, hsum, Nat.add_mul_mod_self_left,
      Nat.mod_eq_of_lt hlt]
  have hdiv : s.n + (s.i + delta) / (s.output.length + 1) = m := by
    have hsplit := Nat.mod_add_div (s.i + delta) (s.output.length + 1)
    rw [hmod] at hsplit
    refine Nat.eq_of_mul_eq_mul_left (Nat.succ_pos s.output.length) ?_
    linarith
  simp only [State.insert, hmod, hdiv, Nat.add_sub_cancel_left]

end Bootstring

end PxcCore.Lib
