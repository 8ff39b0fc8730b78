import Mathlib

/-!
# Triangular probing

On `n` places the walk from a start goes on by one place, then by two, by three, and so on around.
When `n` is a power of two its first `n` places are all different, so it comes to every place.
-/

namespace PxcCore.Lib.TriangularProbing

variable {n k s : ℕ}

/-- The place after `i` steps from `s`. -/
def place (n s : ℕ) : ℕ → ℕ
  | 0 => s
  | i + 1 => (place n s i + (i + 1)) % n

theorem place_lt (hs : s < n) : ∀ i, place n s i < n
  | 0 => hs
  | _ + 1 => Nat.mod_lt _ (by omega)

theorem two_mul_triangle (i : ℕ) : 2 * (i * (i + 1) / 2) = i * (i + 1) :=
  Nat.mul_div_cancel' (Nat.even_mul_succ_self i).two_dvd

theorem place_eq (hs : s < n) (i : ℕ) : place n s i = (s + i * (i + 1) / 2) % n := by
  induction i with
  | zero => simp [place, Nat.mod_eq_of_lt hs]
  | succ i ih =>
    have h0 := two_mul_triangle i
    have h1 := two_mul_triangle (i + 1)
    have h2 : (i + 1) * (i + 1 + 1) = i * (i + 1) + 2 * (i + 1) := by ring
    have h : (i + 1) * (i + 1 + 1) / 2 = i * (i + 1) / 2 + (i + 1) := by omega
    rw [place, ih, Nat.mod_add_mod, h, Nat.add_assoc]

/-- Two factors of different parity whose product is a multiple of a power of two: the even one
is. -/
theorem dvd_of_odd_add {a b : ℕ} (h : 2 ^ k ∣ a * b) (hab : Odd (a + b)) :
    2 ^ k ∣ a ∨ 2 ^ k ∣ b := by
  rcases Nat.even_or_odd a with ha | ha
  · have hb : Odd b := (Nat.odd_add'.1 hab).2 ha
    have hc : Nat.Coprime (2 ^ k) b := hb.coprime_two_left.pow_left k
    exact Or.inl (hc.dvd_of_dvd_mul_right h)
  · have hc : Nat.Coprime (2 ^ k) a := ha.coprime_two_left.pow_left k
    exact Or.inr (hc.dvd_of_dvd_mul_left h)

/-- The first `2 ^ k` places are different. -/
theorem place_injective (hs : s < 2 ^ k) {i j : ℕ} (hi : i < 2 ^ k) (hj : j < 2 ^ k)
    (h : place (2 ^ k) s i = place (2 ^ k) s j) : i = j := by
  wlog hle : j ≤ i generalizing i j
  · exact (this hj hi h.symm (by omega)).symm
  rw [place_eq hs, place_eq hs] at h
  have hmod : j * (j + 1) / 2 ≡ i * (i + 1) / 2 [MOD 2 ^ k] := (Nat.ModEq.add_left_cancel' s h).symm
  have htwo := Nat.ModEq.mul_left' 2 hmod
  rw [two_mul_triangle, two_mul_triangle, ← Nat.pow_succ'] at htwo
  have hmono : j * (j + 1) ≤ i * (i + 1) := Nat.mul_le_mul hle (by omega)
  have hdvd := (Nat.modEq_iff_dvd' hmono).1 htwo
  obtain ⟨d, rfl⟩ := Nat.exists_eq_add_of_le hle
  have hprod : (j + d) * (j + d + 1) - j * (j + 1) = d * (2 * j + d + 1) := by
    rw [Nat.sub_eq_iff_eq_add hmono]
    ring
  rw [hprod] at hdvd
  have hpow : 2 ^ (k + 1) = 2 * 2 ^ k := Nat.pow_succ'
  rcases dvd_of_odd_add hdvd ⟨j + d, by ring⟩ with hd | hd
  · have := Nat.eq_zero_of_dvd_of_lt hd (by omega)
    omega
  · have := Nat.eq_zero_of_dvd_of_lt hd (by omega)
    omega

/-- The walk comes to every place. -/
theorem exists_place (hs : s < 2 ^ k) {c : ℕ} (hc : c < 2 ^ k) :
    ∃ i < 2 ^ k, place (2 ^ k) s i = c := by
  have hinj : Function.Injective
      fun i : Fin (2 ^ k) ↦ (⟨place (2 ^ k) s i, place_lt hs i⟩ : Fin (2 ^ k)) := by
    intro i j h
    exact Fin.ext (place_injective hs i.2 j.2 (by simpa using h))
  obtain ⟨i, hi⟩ := Finite.injective_iff_surjective.1 hinj ⟨c, hc⟩
  exact ⟨i, i.2, by simpa using hi⟩

/-! ## Passing over -/

/-- On the walk from `s`, the place `c` comes before the place `d`. -/
def Passes (n s d c : ℕ) : Prop := ∃ i < n, place n s i = d ∧ ∃ j < i, place n s j = c

instance (n s d c : ℕ) : Decidable (Passes n s d c) := by
  unfold Passes
  infer_instance

theorem passes_iff (hs : s < 2 ^ k) {i : ℕ} (hi : i < 2 ^ k) {c : ℕ} :
    Passes (2 ^ k) s (place (2 ^ k) s i) c ↔ ∃ j < i, place (2 ^ k) s j = c := by
  constructor
  · rintro ⟨i', hi', he, hj⟩
    rwa [place_injective hs hi' hi he] at hj
  · intro hj
    exact ⟨i, hi, rfl, hj⟩

/-- Of the walks `l`, each from a start to where it ended, the number that passed over `c`. -/
def passed (n : ℕ) (l : Multiset (ℕ × ℕ)) (c : ℕ) : ℕ := l.countP fun w ↦ Passes n w.1 w.2 c

@[simp] theorem passed_zero (n c : ℕ) : passed n 0 c = 0 := rfl

theorem passed_cons (n : ℕ) (w : ℕ × ℕ) (l : Multiset (ℕ × ℕ)) (c : ℕ) :
    passed n (w ::ₘ l) c = passed n l c + if Passes n w.1 w.2 c then 1 else 0 :=
  Multiset.countP_cons _ w l

theorem passed_le_cons (n : ℕ) (w : ℕ × ℕ) (l : Multiset (ℕ × ℕ)) (c : ℕ) :
    passed n l c ≤ passed n (w ::ₘ l) c := by
  rw [passed_cons]
  exact Nat.le_add_right _ _

/-! ## Dealing out -/

/-- The number of walks that ended at `c`. -/
def load (l : Multiset (ℕ × ℕ)) (c : ℕ) : ℕ := l.countP fun w ↦ w.2 = c

/-- The first place on the walk from `s` where fewer than `cap` walks have ended. -/
def firstRoom (n cap : ℕ) (l : Multiset (ℕ × ℕ)) (s : ℕ) : Option ℕ :=
  ((List.range n).find? fun i ↦ load l (place n s i) < cap).map (place n s)

theorem firstRoom_eq_some {cap : ℕ} {l : Multiset (ℕ × ℕ)} {i : ℕ} (hi : i < n)
    (hroom : load l (place n s i) < cap) (hfull : ∀ j < i, cap ≤ load l (place n s j)) :
    firstRoom n cap l s = some (place n s i) := by
  have hf : (List.range n).find? (fun i ↦ decide (load l (place n s i) < cap)) = some i := by
    rw [List.find?_range_eq_some]
    exact ⟨by simpa using hroom, List.mem_range.2 hi, fun j hj ↦ by simpa using hfull j hj⟩
  rw [firstRoom, hf]
  rfl

/-- Where there is room, all places before were full. -/
theorem of_firstRoom_eq_some {cap : ℕ} {l : Multiset (ℕ × ℕ)} {d : ℕ}
    (h : firstRoom n cap l s = some d) :
    ∃ i < n, place n s i = d ∧ load l d < cap := by
  rw [firstRoom, Option.map_eq_some_iff] at h
  obtain ⟨i, hf, rfl⟩ := h
  rw [List.find?_range_eq_some] at hf
  exact ⟨i, List.mem_range.1 hf.2.1, rfl, by simpa using hf.1⟩

/-- Walks from the starts of a list, one after another, each to the first place with room. -/
def deal (n cap : ℕ) : List ℕ → Multiset (ℕ × ℕ) → Option (Multiset (ℕ × ℕ))
  | [], l => some l
  | s :: ss, l =>
    match firstRoom n cap l s with
    | none => none
    | some d => deal n cap ss ((s, d) ::ₘ l)

/-- No walk is taken back while dealing. -/
theorem passed_le_deal {cap : ℕ} {ss : List ℕ} {l l' : Multiset (ℕ × ℕ)}
    (h : deal n cap ss l = some l') (c : ℕ) : passed n l c ≤ passed n l' c := by
  induction ss generalizing l with
  | nil =>
    rw [deal, Option.some.injEq] at h
    rw [h]
  | cons s ss ih =>
    rw [deal] at h
    split at h
    · simp at h
    · exact (passed_le_cons n _ l c).trans (ih h)

end PxcCore.Lib.TriangularProbing
