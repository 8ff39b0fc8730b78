import Mathlib

/-!
# Factors of small numbers

`pq_gcd`, `pq_add_mul` and `pq_factorize` of `crypto.cpp`, in words of 64 bits.  A loop of the
source is a recursion on a number of rounds, and `none` says that it needs more of them.
-/

namespace PxcCore.PqFactorize

/-! ## The functions -/

/-- `while ((a & 1) == 0) { a >>= 1; }` -/
def shiftLoop : ℕ → UInt64 → Option UInt64
  | 0, _ => none
  | rounds + 1, a => if a &&& 1 = 0 then shiftLoop rounds (a >>> 1) else some a

/-- The main loop of `pq_gcd`. -/
def gcdLoop : ℕ → UInt64 → UInt64 → Option UInt64
  | 0, _, _ => none
  | rounds + 1, a, b =>
    if a > b then do
      let a ← shiftLoop rounds ((a - b) >>> 1)
      gcdLoop rounds a b
    else if b > a then do
      let b ← shiftLoop rounds ((b - a) >>> 1)
      gcdLoop rounds a b
    else some a

/-- `pq_gcd` -/
def pqGcd (rounds : ℕ) (a b : UInt64) : Option UInt64 :=
  if a = 0 then some b
  else do
    let a ← shiftLoop rounds a
    gcdLoop rounds a b

/-- The variables of the loop of `pq_add_mul`. -/
structure AddMul where
  c : UInt64
  a : UInt64
  b : UInt64
deriving DecidableEq

/-- The body of the loop of `pq_add_mul`. -/
def addMulBody (pq : UInt64) (v : AddMul) : AddMul :=
  let c :=
    if v.b &&& 1 ≠ 0 then
      let c := v.c + v.a
      if c ≥ pq then c - pq else c
    else v.c
  let a := v.a + v.a
  let a := if a ≥ pq then a - pq else a
  ⟨c, a, v.b >>> 1⟩

/-- The loop of `pq_add_mul`. -/
def addMulLoop (pq : UInt64) : ℕ → AddMul → Option UInt64
  | 0, _ => none
  | rounds + 1, v => if v.b ≠ 0 then addMulLoop pq rounds (addMulBody pq v) else some v.c

/-- `pq_add_mul` -/
def pqAddMul (rounds : ℕ) (c a b pq : UInt64) : Option UInt64 := addMulLoop pq rounds ⟨c, a, b⟩

/-- The inner loop of `pq_factorize`, for `n` more values of `j`: the values of `iter` and `g`. -/
def rhoLoop (rounds : ℕ) (pq q : UInt64) :
    ℕ → ℕ → ℕ → UInt64 → UInt64 → UInt64 → Option (ℕ × UInt64)
  | 0, _, iter, _, _, g => some (iter, g)
  | n + 1, j, iter, x, y, _ => do
    let x ← pqAddMul rounds q x x pq
    let z := if x < y then pq + x - y else x - y
    let g ← pqGcd rounds z pq
    if g ≠ 1 then return (iter + 1, g)
    else rhoLoop rounds pq q n (j + 1) (iter + 1) x (if j &&& (j - 1) = 0 then x else y) g

/-- The outer loop of `pq_factorize`: the last value of `g`.  The loop is over before `iter`, an
`int`, is at `2 ^ 24`. -/
def searchLoop (rounds : ℕ) (pq : UInt64) (fast fastUint64 : ℕ → UInt64) :
    ℕ → ℕ → ℕ → UInt64 → Option UInt64
  | 0, _, _, _ => none
  | n + 1, i, iter, g =>
    if i < 3 ∨ iter < 1000 then do
      let q := fast i % (pq - 1)
      let x := fastUint64 i % (pq - 1) + 1
      let lim := 2 ^ (min 5 i + 18)
      let (iter, g) ← rhoLoop rounds pq q (lim - 1) 1 iter x x g
      if 1 < g ∧ g < pq then return g
      else searchLoop rounds pq fast fastUint64 n (i + 1) iter g
    else some g

/-- `pq_factorize`.  The random numbers of the round `i` are `fast i`, from 17 to 32, and
`fastUint64 i`. -/
def pqFactorize (rounds : ℕ) (fast fastUint64 : ℕ → UInt64) (pq : UInt64) : Option UInt64 :=
  if pq ≤ 2 ∨ pq > (1 : UInt64) <<< 63 then some 1
  else if pq &&& 1 = 0 then some 2
  else do
    let g ← searchLoop rounds pq fast fastUint64 rounds 0 0 0
    if g ≠ 0 then
      let other := pq / g
      return if other < g then other else g
    else return g

/-! ## Words -/

theorem and_one_eq_zero_iff (a : UInt64) : a &&& 1 = 0 ↔ a.toNat % 2 = 0 := by
  rw [← UInt64.toNat_inj, UInt64.toNat_and]
  exact Iff.of_eq (congrArg (· = 0) (Nat.and_one_is_mod a.toNat))

theorem toNat_shiftRight_one (a : UInt64) : (a >>> 1).toNat = a.toNat / 2 := by
  rw [UInt64.toNat_shiftRight]
  rfl

/-! ## The greatest common divisor -/

theorem gcd_half {a b : ℕ} (ha : a % 2 = 0) (hb : b % 2 = 1) : Nat.gcd (a / 2) b = Nat.gcd a b := by
  have hcoprime : Nat.Coprime 2 b := (Nat.coprime_two_left).mpr (Nat.odd_iff.mpr hb)
  conv_rhs => rw [← Nat.mul_div_cancel' (Nat.dvd_of_mod_eq_zero ha)]
  exact (hcoprime.gcd_mul_left_cancel _).symm

/-- What is left of a number when the factors 2 are taken out of it. -/
theorem shiftLoop_spec {k rounds : ℕ} {a : UInt64} (ha : a.toNat ≠ 0) (hk : a.toNat < 2 ^ k)
    (hrounds : k ≤ rounds) :
    ∃ a', shiftLoop rounds a = some a' ∧ a'.toNat % 2 = 1 ∧ a'.toNat ≤ a.toNat ∧
      ∀ b, b % 2 = 1 → Nat.gcd a'.toNat b = Nat.gcd a.toNat b := by
  induction k generalizing rounds a with
  | zero => omega
  | succ k ih =>
    obtain ⟨rounds, rfl⟩ := Nat.exists_eq_succ_of_ne_zero (by omega : rounds ≠ 0)
    rw [Nat.succ_eq_add_one, shiftLoop]
    split_ifs with heven
    · rw [and_one_eq_zero_iff] at heven
      have hhalf := toNat_shiftRight_one a
      have hpos : (a >>> 1).toNat ≠ 0 := by omega
      obtain ⟨a', ha', hodd, hle, hgcd⟩ := ih hpos (by rw [hhalf]; omega)
        (show k ≤ rounds by omega)
      refine ⟨a', ha', hodd, by omega, fun b hb ↦ ?_⟩
      rw [hgcd b hb, hhalf, gcd_half heven hb]
    · rw [and_one_eq_zero_iff] at heven
      exact ⟨a, rfl, by omega, le_rfl, fun _ _ ↦ rfl⟩

/-- One step of the main loop, for the greater number `a`: the sum of the two is halved at least. -/
theorem subtract_spec {rounds : ℕ} {a b : UInt64} (ha : a.toNat % 2 = 1) (hb : b.toNat % 2 = 1)
    (hlt : b < a) (hrounds : 64 ≤ rounds) :
    ∃ a', shiftLoop rounds ((a - b) >>> 1) = some a' ∧ a'.toNat % 2 = 1 ∧
      2 * (a'.toNat + b.toNat) ≤ a.toNat + b.toNat ∧
      Nat.gcd a'.toNat b.toNat = Nat.gcd a.toNat b.toNat := by
  have hlt' : b.toNat < a.toNat := UInt64.lt_iff_toNat_lt.mp hlt
  have hhalf : ((a - b) >>> 1).toNat = (a.toNat - b.toNat) / 2 := by
    rw [toNat_shiftRight_one, UInt64.toNat_sub_of_le _ _ (UInt64.le_of_lt hlt)]
  have hbound := UInt64.toNat_lt ((a - b) >>> 1)
  obtain ⟨a', ha', hodd, hle, hgcd⟩ := shiftLoop_spec (by omega) hbound hrounds
  refine ⟨a', ha', hodd, by omega, ?_⟩
  rw [hgcd _ hb, hhalf, gcd_half (by omega) hb, Nat.gcd_sub_self_left hlt'.le]

theorem gcdLoop_spec {k rounds : ℕ} {a b : UInt64} (ha : a.toNat % 2 = 1) (hb : b.toNat % 2 = 1)
    (hk : a.toNat + b.toNat < 2 ^ (k + 1)) (hrounds : k + 64 ≤ rounds) :
    ∃ d, gcdLoop rounds a b = some d ∧ d.toNat = Nat.gcd a.toNat b.toNat := by
  induction k generalizing rounds a b with
  | zero => omega
  | succ k ih =>
    obtain ⟨rounds, rfl⟩ := Nat.exists_eq_succ_of_ne_zero (by omega : rounds ≠ 0)
    rw [Nat.succ_eq_add_one, gcdLoop]
    split_ifs with hgt hlt
    · obtain ⟨a', ha', hodd, hsum, hgcd⟩ := subtract_spec ha hb hgt (by omega : 64 ≤ rounds)
      rw [ha', ← hgcd]
      exact ih hodd hb (by omega) (by omega)
    · obtain ⟨b', hb', hodd, hsum, hgcd⟩ := subtract_spec hb ha hlt (by omega : 64 ≤ rounds)
      rw [hb', Nat.gcd_comm a.toNat, ← hgcd, Nat.gcd_comm b'.toNat]
      exact ih ha hodd (by omega) (by omega)
    · have heq : a = b := UInt64.le_antisymm (UInt64.not_lt.mp hgt) (UInt64.not_lt.mp hlt)
      exact ⟨a, rfl, by rw [heq, Nat.gcd_self]⟩

theorem pqGcd_spec {rounds : ℕ} (a : UInt64) {b : UInt64} (hb : b.toNat % 2 = 1)
    (hrounds : 128 ≤ rounds) :
    ∃ d, pqGcd rounds a b = some d ∧ d.toNat = Nat.gcd a.toNat b.toNat := by
  rw [pqGcd]
  split_ifs with hzero
  · exact ⟨b, rfl, by rw [hzero]; exact (Nat.gcd_zero_left _).symm⟩
  · have hne : a.toNat ≠ 0 := fun h ↦ hzero (UInt64.toNat_inj.mp h)
    obtain ⟨a', ha', hodd, hle, hgcd⟩ := shiftLoop_spec hne a.toNat_lt (by omega : 64 ≤ rounds)
    have hsum : a'.toNat + b.toNat < 2 ^ (64 + 1) := by
      have := b.toNat_lt
      have := a'.toNat_lt
      omega
    rw [ha', ← hgcd _ hb]
    exact gcdLoop_spec hodd hb hsum hrounds

/-! ## The modular product -/

/-- The numbers of the loop are below `pq`. -/
structure AddMul.Below (pq : UInt64) (v : AddMul) : Prop where
  c : v.c < pq
  a : v.a < pq

/-- An addition of the loop that is reduced once: it does not wrap. -/
theorem toNat_addMod {pq x y : UInt64} (hpq : pq.toNat ≤ 2 ^ 63) (hx : x < pq) (hy : y < pq) :
    (if x + y ≥ pq then x + y - pq else x + y).toNat = (x.toNat + y.toNat) % pq.toNat := by
  rw [UInt64.lt_iff_toNat_lt] at hx hy
  have hadd : (x + y).toNat = x.toNat + y.toNat := by
    rw [UInt64.toNat_add, Nat.mod_eq_of_lt (by omega)]
  split_ifs with hge
  · have hge' := UInt64.le_iff_toNat_le.mp hge
    rw [UInt64.toNat_sub_of_le _ _ hge, hadd, Nat.mod_eq_sub_mod (by omega),
      Nat.mod_eq_of_lt (by omega)]
  · rw [ge_iff_le, UInt64.le_iff_toNat_le] at hge
    rw [hadd, Nat.mod_eq_of_lt (by omega)]

theorem AddMul.Below.body {pq : UInt64} {v : AddMul} (h : v.Below pq) (hpq : pq.toNat ≤ 2 ^ 63) :
    (addMulBody pq v).Below pq := by
  have hpos : 0 < pq.toNat := (Nat.zero_le _).trans_lt (UInt64.lt_iff_toNat_lt.mp h.c)
  constructor
  · by_cases heven : v.b &&& 1 = 0
    · simp only [addMulBody, ne_eq, heven, not_true_eq_false, if_false]
      exact h.c
    · simp only [addMulBody, ne_eq, heven, not_false_eq_true, if_true]
      rw [UInt64.lt_iff_toNat_lt, toNat_addMod hpq h.c h.a]
      exact Nat.mod_lt _ hpos
  · rw [addMulBody, UInt64.lt_iff_toNat_lt, toNat_addMod hpq h.a h.a]
    exact Nat.mod_lt _ hpos

theorem AddMul.Below.iterate {pq : UInt64} {v : AddMul} (h : v.Below pq) (hpq : pq.toNat ≤ 2 ^ 63)
    (n : ℕ) : ((addMulBody pq)^[n] v).Below pq := by
  induction n with
  | zero => exact h
  | succ n ih =>
    rw [Function.iterate_succ_apply']
    exact ih.body hpq

/-- The value that the loop computes is the same after one more round. -/
theorem addMulBody_value {pq : UInt64} {v : AddMul} (h : v.Below pq) (hpq : pq.toNat ≤ 2 ^ 63) :
    ((addMulBody pq v).c.toNat + (addMulBody pq v).a.toNat * (addMulBody pq v).b.toNat) %
        pq.toNat = (v.c.toNat + v.a.toNat * v.b.toNat) % pq.toNat := by
  have ha : (addMulBody pq v).a.toNat = (v.a.toNat + v.a.toNat) % pq.toNat :=
    toNat_addMod hpq h.a h.a
  have hb : (addMulBody pq v).b.toNat = v.b.toNat / 2 := toNat_shiftRight_one v.b
  have hc : (addMulBody pq v).c.toNat % pq.toNat =
      (v.c.toNat + v.b.toNat % 2 * v.a.toNat) % pq.toNat := by
    rw [addMulBody]
    by_cases heven : v.b &&& 1 = 0
    · rw [(and_one_eq_zero_iff _).mp heven, Nat.zero_mul, Nat.add_zero]
      simp only [ne_eq, heven, not_true_eq_false, if_false]
    · have hodd : v.b.toNat % 2 = 1 := by
        have := (and_one_eq_zero_iff v.b).not.mp heven
        omega
      rw [hodd, Nat.one_mul]
      simp only [ne_eq, heven, not_false_eq_true, if_true]
      rw [toNat_addMod hpq h.c h.a, Nat.mod_mod]
  rw [ha, hb]
  calc _ ≡ (addMulBody pq v).c.toNat + (v.a.toNat + v.a.toNat) * (v.b.toNat / 2) [MOD pq.toNat] :=
        Nat.ModEq.add_left _ (Nat.ModEq.mul_right _ (Nat.mod_modEq _ _))
    _ ≡ v.c.toNat + v.b.toNat % 2 * v.a.toNat + (v.a.toNat + v.a.toNat) * (v.b.toNat / 2)
        [MOD pq.toNat] := Nat.ModEq.add_right _ hc
    _ = v.c.toNat + v.a.toNat * (v.b.toNat % 2 + 2 * (v.b.toNat / 2)) := by ring
    _ = v.c.toNat + v.a.toNat * v.b.toNat := by rw [Nat.mod_add_div]

theorem addMulLoop_spec {pq : UInt64} {k rounds : ℕ} {v : AddMul} (h : v.Below pq)
    (hpq : pq.toNat ≤ 2 ^ 63) (hk : v.b.toNat < 2 ^ k) (hrounds : k < rounds) :
    ∃ c, addMulLoop pq rounds v = some c ∧
      c.toNat = (v.c.toNat + v.a.toNat * v.b.toNat) % pq.toNat := by
  induction k generalizing rounds v with
  | zero =>
    obtain ⟨rounds, rfl⟩ := Nat.exists_eq_succ_of_ne_zero (by omega : rounds ≠ 0)
    have hzero : v.b.toNat = 0 := by omega
    have hzero' : v.b = 0 := UInt64.toNat_inj.mp hzero
    rw [Nat.succ_eq_add_one, addMulLoop, if_neg (not_not.mpr hzero')]
    refine ⟨v.c, rfl, ?_⟩
    rw [hzero, Nat.mul_zero, Nat.add_zero, Nat.mod_eq_of_lt (UInt64.lt_iff_toNat_lt.mp h.c)]
  | succ k ih =>
    obtain ⟨rounds, rfl⟩ := Nat.exists_eq_succ_of_ne_zero (by omega : rounds ≠ 0)
    rw [Nat.succ_eq_add_one, addMulLoop]
    split_ifs with hne
    · have hb : (addMulBody pq v).b.toNat = v.b.toNat / 2 := toNat_shiftRight_one v.b
      rw [← addMulBody_value h hpq]
      exact ih (h.body hpq) (by omega) (by omega)
    · have hzero : v.b.toNat = 0 := by rw [not_not.mp hne]; rfl
      refine ⟨v.c, rfl, ?_⟩
      rw [hzero, Nat.mul_zero, Nat.add_zero, Nat.mod_eq_of_lt (UInt64.lt_iff_toNat_lt.mp h.c)]

theorem pqAddMul_spec {rounds : ℕ} {c a b pq : UInt64} (hc : c < pq) (ha : a < pq)
    (hpq : pq.toNat ≤ 2 ^ 63) (hrounds : 64 < rounds) :
    ∃ r, pqAddMul rounds c a b pq = some r ∧
      r.toNat = (c.toNat + a.toNat * b.toNat) % pq.toNat :=
  addMulLoop_spec (v := ⟨c, a, b⟩) ⟨hc, ha⟩ hpq b.toNat_lt hrounds

/-! ## The search -/

theorem mod_lt_of_ne_zero {a m : UInt64} (h : m.toNat ≠ 0) : a % m < m := by
  rw [UInt64.lt_iff_toNat_lt, UInt64.toNat_mod]
  exact Nat.mod_lt _ (by omega)

/-- The inner loop ends with a divisor of `pq`, and it counts its rounds. -/
theorem rhoLoop_spec {rounds : ℕ} {pq q : UInt64} (hodd : pq.toNat % 2 = 1)
    (hpq : pq.toNat ≤ 2 ^ 63) (hq : q < pq) (hrounds : 128 ≤ rounds) (n j iter : ℕ)
    {x y g : UInt64} (hx : x < pq) (hg : g.toNat ∣ pq.toNat ∨ 0 < n) :
    ∃ iter' g', rhoLoop rounds pq q n j iter x y g = some (iter', g') ∧ iter ≤ iter' ∧
      (0 < n → iter < iter') ∧ g'.toNat ∣ pq.toNat := by
  induction n generalizing j iter x y g with
  | zero => exact ⟨iter, g, rfl, le_rfl, by omega, hg.resolve_right (Nat.lt_irrefl 0)⟩
  | succ n ih =>
    obtain ⟨x', hx', hvalue⟩ := pqAddMul_spec (b := x) hq hx hpq (by omega : 64 < rounds)
    have hlt : x' < pq := by
      rw [UInt64.lt_iff_toNat_lt, hvalue]
      exact Nat.mod_lt _ (by omega)
    obtain ⟨g', hg', hgcd⟩ :=
      pqGcd_spec (if x' < y then pq + x' - y else x' - y) hodd hrounds
    have hdvd : g'.toNat ∣ pq.toNat := by
      rw [hgcd]
      exact Nat.gcd_dvd_right _ _
    simp only [rhoLoop, hx', hg', Option.bind_eq_bind, Option.bind_some]
    by_cases hone : g' ≠ 1
    · rw [if_pos hone]
      exact ⟨iter + 1, g', rfl, by omega, fun _ ↦ by omega, hdvd⟩
    · rw [if_neg hone]
      obtain ⟨iter', g'', hrest, hle, -, hdvd'⟩ := ih (j + 1) (iter + 1)
        (y := if j &&& (j - 1) = 0 then x' else y) hlt (.inl hdvd)
      exact ⟨iter', g'', hrest, by omega, fun _ ↦ by omega, hdvd'⟩

/-- The search ends: `iter` is at least `i`, and below 1000 in the rounds from the third on. -/
theorem searchLoop_spec {rounds : ℕ} {pq : UInt64} (fast fastUint64 : ℕ → UInt64)
    (hodd : pq.toNat % 2 = 1) (hlow : 2 < pq.toNat) (hpq : pq.toNat ≤ 2 ^ 63)
    (hrounds : 128 ≤ rounds) (n i iter : ℕ) {g : UInt64} (hi : i ≤ iter) (hmax : i ≤ 1000)
    (hn : 1000 < n + i) (hg : g.toNat ∣ pq.toNat ∨ i = 0) :
    ∃ g', searchLoop rounds pq fast fastUint64 n i iter g = some g' ∧ g'.toNat ∣ pq.toNat := by
  have hone : (1 : UInt64) ≤ pq := UInt64.le_iff_toNat_le.mpr (by rw [UInt64.toNat_one]; omega)
  have hpred : (pq - 1).toNat = pq.toNat - 1 := UInt64.toNat_sub_of_le _ _ hone
  induction n generalizing i iter g with
  | zero => omega
  | succ n ih =>
    rw [searchLoop]
    split_ifs with hmore
    · have hq : fast i % (pq - 1) < pq := by
        have := mod_lt_of_ne_zero (a := fast i) (m := pq - 1) (by omega)
        rw [UInt64.lt_iff_toNat_lt] at this ⊢
        omega
      have hx : fastUint64 i % (pq - 1) + 1 < pq := by
        have := mod_lt_of_ne_zero (a := fastUint64 i) (m := pq - 1) (by omega)
        rw [UInt64.lt_iff_toNat_lt] at this ⊢
        rw [UInt64.toNat_add, UInt64.toNat_one]
        omega
      have hlim : 0 < 2 ^ (min 5 i + 18) - 1 :=
        Nat.sub_pos_of_lt (Nat.one_lt_two_pow (by omega))
      obtain ⟨iter', g', hrho, -, hcount, hdvd⟩ := rhoLoop_spec hodd hpq hq hrounds
        (2 ^ (min 5 i + 18) - 1) 1 iter (y := fastUint64 i % (pq - 1) + 1) (g := g) hx (.inr hlim)
      simp only [hrho, Option.bind_eq_bind, Option.bind_some]
      split_ifs with hfound
      · exact ⟨g', rfl, hdvd⟩
      · have := hcount hlim
        exact ih (i + 1) iter' (by omega) (by omega) (by omega) (.inl hdvd)
    · exact ⟨g, rfl, hg.resolve_right (by omega)⟩

theorem pqFactorize_spec {rounds : ℕ} (fast fastUint64 : ℕ → UInt64) {pq : UInt64}
    (hpos : 1 ≤ pq.toNat) (hrounds : 1001 ≤ rounds) :
    ∃ d, pqFactorize rounds fast fastUint64 pq = some d ∧ d.toNat ∣ pq.toNat ∧
      d.toNat * d.toNat ≤ pq.toNat := by
  rw [pqFactorize]
  split_ifs with hrange heven
  · exact ⟨1, rfl, one_dvd _, hpos⟩
  · rw [and_one_eq_zero_iff] at heven
    simp only [UInt64.le_iff_toNat_le, not_or, not_le, UInt64.reduceToNat] at hrange
    have hge : 2 * 2 ≤ pq.toNat := by omega
    exact ⟨2, rfl, Nat.dvd_of_mod_eq_zero heven, hge⟩
  · rw [and_one_eq_zero_iff] at heven
    simp only [UInt64.le_iff_toNat_le, gt_iff_lt, UInt64.lt_iff_toNat_lt, not_or, not_le, not_lt,
      UInt64.reduceToNat] at hrange
    have hhigh : pq.toNat ≤ 2 ^ 63 := hrange.2
    obtain ⟨g, hsearch, hdvd⟩ := searchLoop_spec fast fastUint64 (g := 0) (by omega) hrange.1
      hhigh (by omega : 128 ≤ rounds) rounds 0 0 le_rfl (by omega) (by omega) (.inr rfl)
    have hne : g.toNat ≠ 0 := fun h ↦ by
      rw [h, zero_dvd_iff] at hdvd
      omega
    have hne' : g ≠ 0 := fun h ↦ hne (by rw [h]; rfl)
    have hmul : pq.toNat / g.toNat * g.toNat = pq.toNat := Nat.div_mul_cancel hdvd
    simp only [hsearch, Option.bind_eq_bind, Option.bind_some, ne_eq, hne', not_false_eq_true,
      if_true]
    split_ifs with hless
    · refine ⟨pq / g, rfl, ?_⟩
      rw [UInt64.lt_iff_toNat_lt, UInt64.toNat_div] at hless
      rw [UInt64.toNat_div]
      exact ⟨Nat.div_dvd_of_dvd hdvd, (Nat.mul_le_mul_left _ hless.le).trans_eq hmul⟩
    · refine ⟨g, rfl, hdvd, ?_⟩
      rw [UInt64.lt_iff_toNat_lt, UInt64.toNat_div] at hless
      exact (Nat.mul_le_mul_right _ (not_lt.mp hless)).trans_eq hmul

/-- With enough rounds, `pq_gcd`, `pq_add_mul` and `pq_factorize` return what they are for, and no
sum in the loop of `pq_add_mul` wraps. -/
theorem pq_returns {rounds : ℕ} (hrounds : 1001 ≤ rounds) :
    (∀ a b : UInt64, b.toNat % 2 = 1 →
      ∃ d, pqGcd rounds a b = some d ∧ d.toNat = Nat.gcd a.toNat b.toNat) ∧
    (∀ c a b pq : UInt64, c < pq → a < pq → pq.toNat ≤ 2 ^ 63 →
      (∃ r, pqAddMul rounds c a b pq = some r ∧
        r.toNat = (c.toNat + a.toNat * b.toNat) % pq.toNat) ∧
      ∀ n, ((addMulBody pq)^[n] ⟨c, a, b⟩).c.toNat + ((addMulBody pq)^[n] ⟨c, a, b⟩).a.toNat <
          2 ^ 64 ∧
        ((addMulBody pq)^[n] ⟨c, a, b⟩).a.toNat + ((addMulBody pq)^[n] ⟨c, a, b⟩).a.toNat <
          2 ^ 64) ∧
    ∀ (fast fastUint64 : ℕ → UInt64) (pq : UInt64), 1 ≤ pq.toNat →
      ∃ d, pqFactorize rounds fast fastUint64 pq = some d ∧ d.toNat ∣ pq.toNat ∧
        d.toNat * d.toNat ≤ pq.toNat := by
  refine ⟨?_, ?_, ?_⟩
  · intro a b hb
    exact pqGcd_spec a hb (by omega)
  · intro c a b pq hc ha hpq
    refine ⟨pqAddMul_spec hc ha hpq (by omega), fun n ↦ ?_⟩
    have hbelow := AddMul.Below.iterate (v := ⟨c, a, b⟩) ⟨hc, ha⟩ hpq n
    have hlc := UInt64.lt_iff_toNat_lt.mp hbelow.c
    have hla := UInt64.lt_iff_toNat_lt.mp hbelow.a
    constructor <;> omega
  · intro fast fastUint64 pq hpos
    exact pqFactorize_spec fast fastUint64 hpos hrounds

theorem pq_returns_fifteen : ∃ d, pqFactorize 1001 (fun _ ↦ 17) (fun _ ↦ 5) 15 = some d ∧
    d.toNat ∣ 15 ∧ d.toNat * d.toNat ≤ 15 :=
  (pq_returns le_rfl).2.2 (fun _ ↦ 17) (fun _ ↦ 5) 15 (by decide)

example : pqFactorize 30 (fun _ ↦ 17) (fun _ ↦ 5) 15 = some 3 := by decide +kernel

end PxcCore.PqFactorize
