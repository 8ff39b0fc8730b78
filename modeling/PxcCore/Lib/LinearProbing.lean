import PxcCore.Lib.Buckets

/-!
# Linear probing on a ring of buckets

Every entry has a home bucket and is stored there or further on around the ring, with no empty
bucket in between (`Probing`).  Searching from a home bucket to the first empty one is therefore
enough, and an entry may be put into the first empty bucket found so.  Taking an entry out leaves
a hole that entries behind it may have to be moved into; `Hole` is what holds while the hole is
being moved on.
-/

namespace PxcCore.Lib.LinearProbing

variable {α : Type*} {n : ℕ} {home : α → ℕ} {c : ℕ → Option α}

/-! ## The ring -/

/-- The number of steps from `a` forward to `b` on a ring of `n` buckets. -/
def ringDist (n a b : ℕ) : ℕ := if a ≤ b then b - a else b + n - a

/-- The bucket behind `b`. -/
def next (n b : ℕ) : ℕ := (b + 1) % n

theorem next_lt (h : 0 < n) (b : ℕ) : next n b < n := Nat.mod_lt _ h

theorem next_eq {b : ℕ} (h : b < n) : next n b = if b + 1 < n then b + 1 else 0 := by
  unfold next
  split_ifs with hb
  · exact Nat.mod_eq_of_lt hb
  · rw [show b + 1 = n by omega, Nat.mod_self]

theorem ringDist_self (n a : ℕ) : ringDist n a a = 0 := by simp [ringDist]

theorem ringDist_lt {a b : ℕ} (ha : a < n) (hb : b < n) : ringDist n a b < n := by
  unfold ringDist
  split_ifs <;> omega

theorem eq_of_ringDist_eq {a b d : ℕ} (ha : a < n) (hb : b < n) (hd : d < n)
    (h : ringDist n a b = ringDist n a d) : b = d := by
  unfold ringDist at h
  split_ifs at h <;> omega

/-- One step further on, unless that is all the way around. -/
theorem ringDist_next {a b d : ℕ} (ha : a < n) (hb : b < n) (hd : d < n)
    (h : ringDist n a b < ringDist n a d) : ringDist n a (next n b) = ringDist n a b + 1 := by
  rw [next_eq hb]
  unfold ringDist at *
  split_ifs at * <;> omega

theorem ringDist_next_of_lt {a b : ℕ} (ha : a < n) (hb : b < n) (h : ringDist n a b + 1 < n) :
    ringDist n a (next n b) = ringDist n a b + 1 := by
  rw [next_eq hb]
  unfold ringDist at *
  split_ifs at * <;> omega

theorem ringDist_add_mod {a d : ℕ} (ha : a < n) (hd : d < n) : ringDist n a ((a + d) % n) = d := by
  rcases Nat.lt_or_ge (a + d) n with hlt | hge
  · rw [Nat.mod_eq_of_lt hlt, ringDist, if_pos (by omega)]
    omega
  · rw [Nat.mod_eq_sub_mod hge, Nat.mod_eq_of_lt (by omega), ringDist]
    split_ifs <;> omega

theorem ringDist_next_self (hn : 1 < n) {a : ℕ} (ha : a < n) : ringDist n a (next n a) = 1 := by
  rw [next_eq ha]
  unfold ringDist
  split_ifs <;> omega

theorem ringDist_pos {a b : ℕ} (ha : a < n) (h : b ≠ a) : 0 < ringDist n a b := by
  unfold ringDist
  split_ifs <;> omega

/-- Steps that are counted from behind `b`. -/
theorem ringDist_next_left {a b d : ℕ} (ha : a < n) (hb : b < n) (hd : d < n)
    (h : ringDist n a b < ringDist n a d) :
    ringDist n (next n b) d + ringDist n a b + 1 = ringDist n a d := by
  rw [next_eq hb]
  unfold ringDist at *
  split_ifs at * <;> omega

/-- From behind `b` the start is the farthest of the buckets that were not passed. -/
theorem ringDist_next_start {a b : ℕ} (ha : a < n) (hb : b < n) :
    ringDist n (next n b) a + ringDist n a b + 1 = n := by
  rw [next_eq hb]
  unfold ringDist
  split_ifs <;> omega

theorem lt_ringDist_of_next {a b d : ℕ} (ha : a < n) (hb : b < n) (hd : d < n)
    (h : ringDist n (next n b) d < ringDist n (next n b) a) :
    ringDist n a b < ringDist n a d := by
  rw [next_eq hb] at h
  unfold ringDist at *
  split_ifs at * <;> omega

/-! ## Searching -/

/-- Walk from a bucket to the first one that `stop` holds of, in at most `fuel` steps. -/
def probe (succ : ℕ → ℕ) (stop : ℕ → Bool) : ℕ → ℕ → Option ℕ
  | 0, _ => none
  | fuel + 1, b => if stop b then some b else probe succ stop fuel (succ b)

/-- A walk of so many steps finds the first bucket to stop at, or there is none to be found. -/
theorem probe_within {stop : ℕ → Bool} {h : ℕ} (hh : h < n) {steps : ℕ} (hsteps : steps ≤ n) :
    (∃ t < n, probe (next n) stop steps h = some t ∧ ringDist n h t < steps ∧ stop t = true ∧
      ∀ x < n, ringDist n h x < ringDist n h t → stop x = false) ∨
    (probe (next n) stop steps h = none ∧ ∀ x < n, ringDist n h x < steps → stop x = false) := by
  -- the walk has come to `b` after the steps that are not left
  have walk (left b : ℕ) (hb : b < n) (hleft : left = 0 ∨ ringDist n h b + left = steps)
      (hv : ∀ x < n, ringDist n h x + left < steps → stop x = false) :
      (∃ t < n, probe (next n) stop left b = some t ∧ ringDist n h t < steps ∧ stop t = true ∧
        ∀ x < n, ringDist n h x < ringDist n h t → stop x = false) ∨
      (probe (next n) stop left b = none ∧ ∀ x < n, ringDist n h x < steps → stop x = false) := by
    induction left generalizing b with
    | zero => exact .inr ⟨rfl, hv⟩
    | succ left ih =>
      have hleft := hleft.resolve_left (Nat.succ_ne_zero left)
      rw [probe]
      by_cases hst : stop b = true
      · rw [if_pos hst]
        exact .inl ⟨b, hb, rfl, by omega, hst, fun x hx hlt ↦ hv x hx (by omega)⟩
      · rw [if_neg hst]
        refine ih _ (next_lt (by omega) b) ?_ ?_
        · rcases Nat.eq_zero_or_pos left with hzero | hpos
          · exact .inl hzero
          · refine .inr ?_
            rw [ringDist_next_of_lt hh hb (by omega)]
            omega
        · intro x hx hlt
          rcases Nat.lt_or_ge (ringDist n h x + (left + 1)) steps with hlt' | hge
          · exact hv x hx hlt'
          · rw [eq_of_ringDist_eq hh hx hb (by omega)]
            simpa using hst
  refine walk steps h hh ?_ ?_
  · rw [ringDist_self, Nat.zero_add]
    exact .inr rfl
  · intro x hx hlt
    omega

/-- The walk around the ring finds the first bucket to stop at, if there is one at all. -/
theorem probe_next {stop : ℕ → Bool} {h : ℕ} (hh : h < n) (hs : ∃ b < n, stop b = true) :
    ∃ t < n, probe (next n) stop n h = some t ∧ stop t = true ∧
      ∀ x < n, ringDist n h x < ringDist n h t → stop x = false := by
  rcases probe_within hh le_rfl with ⟨t, ht, hprobe, -, hst, hv⟩ | ⟨-, hv⟩
  · exact ⟨t, ht, hprobe, hst, hv⟩
  · obtain ⟨b, hb, hsb⟩ := hs
    simp [hv b hb (ringDist_lt hh hb)] at hsb

/-- A walk that comes to a bucket to stop at, after fewer steps than it may take. -/
theorem probe_iterate {succ : ℕ → ℕ} {stop : ℕ → Bool} {steps fuel b : ℕ} (hlt : steps < fuel)
    (hstop : stop (succ^[steps] b) = true) :
    ∃ k ≤ steps, probe succ stop fuel b = some (succ^[k] b) ∧ stop (succ^[k] b) = true := by
  induction fuel generalizing b steps with
  | zero => omega
  | succ fuel ih =>
    rw [probe]
    by_cases hb : stop b = true
    · exact ⟨0, Nat.zero_le _, if_pos hb, hb⟩
    rw [if_neg hb]
    cases steps with
    | zero => exact absurd hstop hb
    | succ steps =>
      rw [Function.iterate_succ_apply] at hstop
      obtain ⟨k, hk, hprobe, hs⟩ := ih (Nat.lt_of_succ_lt_succ hlt) hstop
      exact ⟨k + 1, Nat.succ_le_succ hk, hprobe, hs⟩

/-- Only the steps from buckets of the ring matter. -/
theorem probe_congr {f g : ℕ → ℕ} (hfg : ∀ b < n, f b = g b) (hg : ∀ b < n, g b < n)
    (stop : ℕ → Bool) (fuel : ℕ) {b : ℕ} (hb : b < n) :
    probe f stop fuel b = probe g stop fuel b := by
  induction fuel generalizing b with
  | zero => rfl
  | succ fuel ih => rw [probe, probe, hfg b hb, ih (hg b hb)]

/-! ## The invariant -/

/-- Between the home of an entry and the entry itself no bucket is empty. -/
def Probing (n : ℕ) (home : α → ℕ) (c : ℕ → Option α) : Prop :=
  ∀ b < n, ∀ a, c b = some a → ∀ x < n, ringDist n (home a) x < ringDist n (home a) b → c x ≠ none

theorem Probing.none : Probing n home (fun _ ↦ Option.none) := by
  intro b _ a ha
  simp at ha

/-- An entry that is stored at all lies before the first empty bucket behind its home. -/
theorem Probing.lt_of_none (h : Probing n home c) {b t : ℕ} (hb : b < n) (ht : t < n) {a : α}
    (ha : c b = some a) (hh : home a < n) (hc : c t = Option.none) :
    ringDist n (home a) b < ringDist n (home a) t := by
  by_contra hlt
  rcases lt_or_eq_of_le (not_lt.1 hlt) with hlt | he
  · exact h b hb a ha t ht hlt hc
  · rw [eq_of_ringDist_eq hh ht hb he] at hc
    simp [hc] at ha

/-- An entry may be put into the first empty bucket behind its home. -/
theorem Probing.insert (h : Probing n home c) {t : ℕ} {a : α}
    (hv : ∀ x < n, ringDist n (home a) x < ringDist n (home a) t → c x ≠ Option.none) :
    Probing n home (Function.update c t (some a)) := by
  intro b hb a' ha' x hx hlt
  by_cases hxt : x = t
  · simp [hxt]
  rw [Function.update_of_ne hxt]
  by_cases hbt : b = t
  · subst hbt
    rw [Function.update_self] at ha'
    cases ha'
    exact hv x hx hlt
  · rw [Function.update_of_ne hbt] at ha'
    exact h b hb a' ha' x hx hlt

/-! ## Closing a hole -/

/-- Bucket `e` has been emptied, and `t` is the next bucket to look at.  Every run may now be
broken at `e`, but the entries between `e` and `t` do not rely on `e`. -/
structure Hole (n : ℕ) (home : α → ℕ) (c : ℕ → Option α) (e t : ℕ) : Prop where
  empty : c e = none
  run : ∀ b < n, ∀ a, c b = some a → ∀ x < n, ringDist n (home a) x < ringDist n (home a) b →
    x = e ∨ c x ≠ none
  settled : ∀ x < n, x ≠ e → ringDist n e x < ringDist n e t →
    ∃ a, c x = some a ∧ ringDist n (home a) x < ringDist n e x

/-- Emptying a bucket makes a hole. -/
theorem Hole.start (h : Probing n home c) (hn : 1 < n) {e : ℕ} (he : e < n) :
    Hole n home (Function.update c e none) e (next n e) where
  empty := Function.update_self e none c
  run b hb a ha x hx hlt := by
    by_cases hxe : x = e
    · exact Or.inl hxe
    have hbe : b ≠ e := by
      rintro rfl
      simp at ha
    rw [Function.update_of_ne hbe] at ha
    rw [Function.update_of_ne hxe]
    exact Or.inr (h b hb a ha x hx hlt)
  settled x hx hxe hlt := by
    have := ringDist_pos he hxe
    rw [ringDist_next_self hn he] at hlt
    omega

/-- An entry whose home lies behind the hole stays where it is. -/
theorem Hole.settle {e t d : ℕ} (h : Hole n home c e t) (he : e < n) (ht : t < n) (hd : d < n)
    (hde : ringDist n e t < ringDist n e d) {a : α} (ha : c t = some a)
    (hlt : ringDist n (home a) t < ringDist n e t) : Hole n home c e (next n t) where
  empty := h.empty
  run := h.run
  settled x hx hxe hxt := by
    rw [ringDist_next he ht hd hde] at hxt
    rcases Nat.lt_succ_iff_lt_or_eq.1 hxt with hxt | hxt
    · exact h.settled x hx hxe hxt
    · rw [eq_of_ringDist_eq he hx ht hxt]
      exact ⟨a, ha, hlt⟩

/-- An entry whose run passes the hole is moved into it, which moves the hole. -/
theorem Hole.move {e t : ℕ} (h : Hole n home c e t) (hn : 1 < n) (he : e < n) (ht : t < n) {a : α}
    (ha : c t = some a) (hh : home a < n) (hle : ringDist n e t ≤ ringDist n (home a) t) :
    Hole n home (Function.update (Function.update c e (some a)) t none) t (next n t) where
  empty := by rw [Function.update_self]
  run b hb a' ha' x hx hlt := by
    by_cases hxt : x = t
    · exact Or.inl hxt
    rw [Function.update_of_ne hxt]
    by_cases hxe : x = e
    · simp [hxe]
    rw [Function.update_of_ne hxe]
    have hbt : b ≠ t := by
      rintro rfl
      simp at ha'
    rw [Function.update_of_ne hbt] at ha'
    by_cases hbe : b = e
    · subst hbe
      rw [Function.update_self] at ha'
      cases ha'
      have hlt' : ringDist n (home a) x < ringDist n (home a) t := by
        unfold ringDist at *
        split_ifs at * <;> omega
      exact Or.inr ((h.run t ht a ha x hx hlt').resolve_left hxe)
    · rw [Function.update_of_ne hbe] at ha'
      exact Or.inr ((h.run b hb a' ha' x hx hlt).resolve_left hxe)
  settled x hx hxt hlt := by
    have := ringDist_pos ht hxt
    rw [ringDist_next_self hn ht] at hlt
    omega

/-- Once an empty bucket is met, no run relies on the hole. -/
theorem Hole.finish {e t : ℕ} (h : Hole n home c e t) (he : e < n) (ht : t < n) (hne : t ≠ e)
    (hh : ∀ a, home a < n) (hc : c t = none) : Probing n home c := by
  intro b hb a ha x hx hlt
  rcases h.run b hb a ha x hx hlt with rfl | hx
  swap
  · exact hx
  exfalso
  have hbe : b ≠ x := by
    rintro rfl
    simp [h.empty] at ha
  have hbt : b ≠ t := by
    rintro rfl
    simp [hc] at ha
  have ha' := hh a
  rcases lt_or_ge (ringDist n x b) (ringDist n x t) with hlt' | hge
  · obtain ⟨a', ha'', hs⟩ := h.settled b hb hbe hlt'
    rw [ha] at ha''
    cases ha''
    unfold ringDist at *
    split_ifs at * <;> omega
  · have htb : ringDist n (home a) t < ringDist n (home a) b := by
      unfold ringDist at *
      split_ifs at * <;> omega
    rcases h.run b hb a ha t ht htb with rfl | hx
    · exact hne rfl
    · exact hx hc

/-- A hole at `e` that is being closed, with the empty bucket `o` still ahead of `t`. -/
structure Sweep (n : ℕ) (home : α → ℕ) (c : ℕ → Option α) (e t o : ℕ) : Prop
    extends Hole n home c e t where
  one_lt : 1 < n
  hole_lt : e < n
  test_lt : t < n
  test_ne : t ≠ e
  stop_lt : o < n
  stop_ne : o ≠ e
  stop_empty : c o = none
  stop_ahead : ringDist n e t ≤ ringDist n e o

theorem Sweep.start (h : Probing n home c) (hn : 1 < n) {e o : ℕ} (he : e < n) (ho : o < n)
    (hne : o ≠ e) (hc : c o = none) :
    Sweep n home (Function.update c e none) e (next n e) o where
  toHole := Hole.start h hn he
  one_lt := hn
  hole_lt := he
  test_lt := next_lt (by omega) e
  test_ne h := by
    have h1 := ringDist_next_self hn he
    rw [h, ringDist_self] at h1
    omega
  stop_lt := ho
  stop_ne := hne
  stop_empty := by rwa [Function.update_of_ne hne]
  stop_ahead := by
    rw [ringDist_next_self hn he]
    exact ringDist_pos he hne

variable {e t o : ℕ}

/-- The bucket that is looked at is not the one ahead, if it holds an entry. -/
theorem Sweep.test_lt_stop (h : Sweep n home c e t o) {a : α} (ha : c t = some a) :
    ringDist n e t < ringDist n e o := by
  refine lt_of_le_of_ne h.stop_ahead fun he ↦ ?_
  have hc := h.stop_empty
  rw [← eq_of_ringDist_eq h.hole_lt h.test_lt h.stop_lt he, ha] at hc
  exact Option.some_ne_none a hc

theorem Sweep.settle (h : Sweep n home c e t o) {a : α} (ha : c t = some a)
    (hlt : ringDist n (home a) t < ringDist n e t) : Sweep n home c e (next n t) o := by
  have hs := h.test_lt_stop ha
  have hd := ringDist_next h.hole_lt h.test_lt h.stop_lt hs
  refine { h with
    toHole := h.toHole.settle h.hole_lt h.test_lt h.stop_lt hs ha hlt
    test_lt := next_lt (by have := h.one_lt; omega) t
    test_ne := ?_
    stop_ahead := by omega }
  intro he
  rw [he, ringDist_self] at hd
  omega

theorem Sweep.move (h : Sweep n home c e t o) {a : α} (ha : c t = some a) (hh : home a < n)
    (hle : ringDist n e t ≤ ringDist n (home a) t) :
    Sweep n home (Function.update (Function.update c e (some a)) t none) t (next n t) o := by
  have hs := h.test_lt_stop ha
  have hd := ringDist_next_self h.one_lt h.test_lt
  have hot : o ≠ t := by
    rintro rfl
    omega
  refine
    { toHole := h.toHole.move h.one_lt h.hole_lt h.test_lt ha hh hle
      one_lt := h.one_lt
      hole_lt := h.test_lt
      test_lt := next_lt (by have := h.one_lt; omega) t
      test_ne := ?_
      stop_lt := h.stop_lt
      stop_ne := hot
      stop_empty := by
        rw [Function.update_of_ne hot, Function.update_of_ne h.stop_ne, h.stop_empty]
      stop_ahead := by
        rw [hd]
        exact ringDist_pos h.test_lt hot }
  intro he
  rw [he, ringDist_self] at hd
  omega

/-- Seen from the empty bucket ahead, the hole comes before the entry that is looked at. -/
theorem Sweep.hole_before (h : Sweep n home c e t o) {a : α} (ha : c t = some a) :
    ringDist n o e < ringDist n o t := by
  have hs := h.test_lt_stop ha
  have he := h.hole_lt
  have ht := h.test_lt
  have ho := h.stop_lt
  have hne := h.test_ne
  have hoe := h.stop_ne
  unfold ringDist at *
  split_ifs at * <;> omega

/-- A move changes nothing before the hole. -/
theorem Sweep.move_before (h : Sweep n home c e t o) {a : α} (ha : c t = some a) {b : ℕ}
    (hb : ringDist n o b < ringDist n o e) :
    Function.update (Function.update c e (some a)) t none b = c b := by
  have hlt := h.hole_before ha
  rw [Function.update_of_ne, Function.update_of_ne]
  · rintro rfl
    exact lt_irrefl _ hb
  · rintro rfl
    exact lt_asymm hb hlt

theorem Sweep.finish (h : Sweep n home c e t o) (hh : ∀ a, home a < n) (hc : c t = none) :
    Probing n home c := h.toHole.finish h.hole_lt h.test_lt h.test_ne hh hc

/-- A move keeps the contents. -/
theorem Sweep.contents_move (h : Sweep n home c e t o) {a : α} (ha : c t = some a) :
    Buckets.contents n (Function.update (Function.update c e (some a)) t none) =
      Buckets.contents n c := Buckets.contents_move h.hole_lt h.test_lt h.empty ha

end PxcCore.Lib.LinearProbing
