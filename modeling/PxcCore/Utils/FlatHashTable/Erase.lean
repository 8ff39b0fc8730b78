import PxcCore.Utils.FlatHashTable.Operations

/-!
# `erase_node`

The two loops of `erase_node` close the hole that an erased node leaves.  Each of them compares
bucket numbers in its own way, the second one with numbers that run past the end of the array; both
comparisons ask whether the run of the tested node passes the hole.
-/

namespace PxcCore.FlatHashTable

open Lib LinearProbing Buckets

namespace Table

variable {K V : Type} {T : Traits K} {mask n : ℕ}

/-! ## The loop to the end of the array -/

/-- The comparison `want_node <= it || want_node > test_node`. -/
theorem want_iff {it test want : ℕ} (hit : it < test) :
    (want ≤ it ∨ want > test) ∧ want < n ↔
      ringDist n it test ≤ ringDist n want test ∧ want < n := by
  unfold ringDist
  split_ifs <;> omega

/-- Where the first loop stands with `left` nodes to test. -/
theorem next_testNode {left : ℕ} (h : left + 1 ≤ n) :
    next n (n - (left + 1)) = (n - left) % n := by
  rw [next, show n - (left + 1) + 1 = n - left by omega]

/-- The first loop returns with the hole closed, or comes to the end of the array with a hole.
Nothing is changed between the empty bucket ahead and the hole. -/
theorem shiftToEnd_spec (hh : ∀ x : K × V, home T mask x < n) {left it o : ℕ} (hl : left < n)
    {nodes : ℕ → Option (K × V)}
    (h : Sweep n (home T mask) nodes it ((n - left) % n) o) (hit : it < n - left) :
    (∃ nodes', shiftToEnd T mask n left nodes it = .inl nodes' ∧
      Probing n (home T mask) nodes' ∧ contents n nodes' = contents n nodes ∧
      ∀ b, ringDist n o b < ringDist n o it → nodes' b = nodes b) ∨
    ∃ nodes' it', shiftToEnd T mask n left nodes it = .inr (nodes', it') ∧
      Sweep n (home T mask) nodes' it' 0 o ∧ contents n nodes' = contents n nodes ∧
      ringDist n o it ≤ ringDist n o it' ∧
      ∀ b, ringDist n o b < ringDist n o it → nodes' b = nodes b := by
  induction left generalizing nodes it with
  | zero =>
    right
    refine ⟨nodes, it, rfl, ?_, rfl, le_rfl, fun b _ ↦ rfl⟩
    simpa using h
  | succ left ih =>
    have ht : (n - (left + 1)) % n = n - (left + 1) := Nat.mod_eq_of_lt (by omega)
    rw [ht] at h
    rw [shiftToEnd]
    cases hc : nodes (n - (left + 1)) with
    | none =>
      left
      exact ⟨nodes, rfl, h.finish hh hc, rfl, fun b _ ↦ rfl⟩
    | some node =>
      have hw : home T mask node < n := hh node
      have hiff := @want_iff n it _ (home T mask node) hit
      simp only [show calcBucket T mask node.1 = home T mask node from rfl]
      by_cases hmove : home T mask node ≤ it ∨ home T mask node > n - (left + 1)
      · have hmv := h.move hc hw (hiff.1 ⟨hmove, hw⟩).1
        rw [next_testNode (by omega)] at hmv
        rw [if_pos hmove]
        have hbefore := h.hole_before hc
        obtain ⟨nodes', hr, hp, he, hb⟩ | ⟨nodes', it', hr, hp, he, hle, hb⟩ :=
          ih (by omega) hmv (by omega)
        · left
          refine ⟨nodes', hr, hp, he.trans (h.contents_move hc), fun b hlt ↦ ?_⟩
          exact (hb b (hlt.trans hbefore)).trans (h.move_before hc hlt)
        · right
          refine ⟨nodes', it', hr, hp, he.trans (h.contents_move hc), hbefore.le.trans hle,
            fun b hlt ↦ ?_⟩
          exact (hb b (hlt.trans hbefore)).trans (h.move_before hc hlt)
      · have hlt : ringDist n (home T mask node) (n - (left + 1)) <
            ringDist n it (n - (left + 1)) := by
          by_contra hge
          exact hmove (hiff.2 ⟨not_lt.1 hge, hw⟩).1
        have hst := h.settle hc hlt
        rw [next_testNode (by omega)] at hst
        rw [if_neg hmove]
        exact ih (by omega) hst (by omega)

/-! ## The loop from the start of the array -/

/-- The numbers of the second loop: `test_i` lies behind the end of the array, `empty_i` before or
behind it, and the empty bucket `o` ahead of both. -/
structure Wrapped (n emptyI emptyBucket testI o : ℕ) : Prop where
  empty : emptyI < n ∧ emptyBucket = emptyI ∧ o < emptyI ∨ n ≤ emptyI ∧ emptyBucket = emptyI - n
  lt : emptyI < testI
  test : n ≤ testI
  ahead : testI - n ≤ o
  stop : o < n

/-- The comparison of the second loop, after `want_i` has been put past `empty_i`. -/
theorem wantI_iff {emptyI emptyBucket testI o want : ℕ} (h : Wrapped n emptyI emptyBucket testI o)
    (hw : want < n) :
    ((if want < emptyI then want + n else want) ≤ emptyI ∨
      (if want < emptyI then want + n else want) > testI) ↔
      ringDist n emptyBucket (testI - n) ≤ ringDist n want (testI - n) := by
  obtain ⟨hE, hlt, htest, ha, ho⟩ := h
  unfold ringDist
  rcases hE with ⟨hn, rfl, hoe⟩ | ⟨hn, rfl⟩ <;> split_ifs <;> omega

theorem Wrapped.next_test {emptyI emptyBucket testI o : ℕ}
    (h : Wrapped n emptyI emptyBucket testI o) (hlt : testI - n < o) :
    next n (testI - n) = testI + 1 - n := by
  have := h.test
  have := h.stop
  rw [next_eq (by omega), if_pos (by omega)]
  omega

theorem shiftWrapped_spec (hh : ∀ x : K × V, home T mask x < n)
    {fuel emptyI emptyBucket testI o : ℕ}
    {nodes : ℕ → Option (K × V)} (hw : Wrapped n emptyI emptyBucket testI o)
    (hf : n + o < testI + fuel) (h : Sweep n (home T mask) nodes emptyBucket (testI - n) o) :
    ∃ nodes', shiftWrapped T mask n fuel nodes emptyI emptyBucket testI = some nodes' ∧
      Probing n (home T mask) nodes' ∧ contents n nodes' = contents n nodes ∧
      ∀ b, ringDist n o b < ringDist n o emptyBucket → nodes' b = nodes b := by
  induction fuel generalizing nodes emptyI emptyBucket testI with
  | zero =>
    have := hw.ahead
    have := hw.test
    omega
  | succ fuel ih =>
    rw [shiftWrapped]
    cases hc : nodes (testI - n) with
    | none => exact ⟨nodes, rfl, h.finish hh hc, rfl, fun b _ ↦ rfl⟩
    | some node =>
      have hiff := wantI_iff hw (hh node)
      have hne : testI - n ≠ o := by
        rintro he
        have hs := h.stop_empty
        rw [← he, hc] at hs
        exact Option.some_ne_none _ hs
      have hlt : testI - n < o := lt_of_le_of_ne hw.ahead hne
      have hn := hw.next_test hlt
      have htest := hw.test
      have hlt' := hw.lt
      simp only
      by_cases hmove : (if home T mask node < emptyI then home T mask node + n else
          home T mask node) ≤ emptyI ∨ (if home T mask node < emptyI then home T mask node + n else
          home T mask node) > testI
      · have hmv := h.move hc (hh node) (hiff.1 hmove)
        rw [hn] at hmv
        have hw' : Wrapped n testI (testI - n) (testI + 1) o :=
          ⟨Or.inr ⟨htest, rfl⟩, by omega, by omega, by omega, hw.stop⟩
        obtain ⟨nodes', hr, hp, he, hb⟩ := ih hw' (by omega) hmv
        refine ⟨nodes', ?_, hp, he.trans (h.contents_move hc), fun b hlt ↦ ?_⟩
        · rw [← hr]
          exact if_pos hmove
        · exact (hb b (hlt.trans (h.hole_before hc))).trans (h.move_before hc hlt)
      · have hst := h.settle hc (not_le.1 fun hle ↦ hmove (hiff.2 hle))
        rw [hn] at hst
        have hw' : Wrapped n emptyI emptyBucket (testI + 1) o :=
          ⟨hw.empty, by omega, by omega, by omega, hw.stop⟩
        obtain ⟨nodes', hr, hp, he, hb⟩ := ih hw' (by omega) hst
        refine ⟨nodes', ?_, hp, he, hb⟩
        rw [← hr]
        exact if_neg hmove

/-! ## Erasing -/

variable {t : Table K V}

/-- `erase_node` takes out its node and nothing else, keeps the probing invariant, and changes
nothing between an empty bucket and the node. -/
theorem Allocated.eraseNode_before (h : Allocated T t) {it : ℕ} (hit : it < t.bucketCount)
    {x : K × V} (hx : t.nodes it = some x) {o : ℕ} (ho : o < t.bucketCount)
    (hoc : t.nodes o = none) :
    ∃ t', t.eraseNode T it = .ok t' ∧ Allocated T t' ∧ x ::ₘ t'.entries = t.entries ∧
      t'.bucketCount = t.bucketCount ∧ ∀ b, ringDist t.bucketCount o b <
        ringDist t.bucketCount o it → t'.nodes b = t.nodes b := by
  have h8 := h.eight_le
  have hcard : (contents t.bucketCount t.nodes).card = t.usedNodeCount := h.used.symm
  -- the empty bucket brings the loops to an end
  have hne : o ≠ it := by
    rintro rfl
    simp [hx] at hoc
  have hs := Sweep.start h.probing (by omega) hit ho hne hoc
  have hent := cons_contents_update_none hit hx
  have hres {nodes : ℕ → Option (K × V)}
      (hp : Probing t.bucketCount (home T t.bucketCountMask) nodes)
      (he : contents t.bucketCount nodes =
        contents t.bucketCount (Function.update t.nodes it none)) :
      Allocated T { t with nodes := nodes, usedNodeCount := t.usedNodeCount - 1 } ∧
        x ::ₘ contents t.bucketCount nodes = t.entries := by
    rw [← he] at hent
    have hcard' : (contents t.bucketCount nodes).card + 1 = t.usedNodeCount := by
      rw [← Multiset.card_cons x, hent, hcard]
    have hload := h.load
    refine ⟨?_, hent⟩
    constructor
    · exact h.allocated
    · exact h.count
    · exact h.mask
    · change t.usedNodeCount - 1 = (contents t.bucketCount nodes).card
      omega
    · change (t.usedNodeCount - 1) * 5 < t.bucketCountMask * 3 + 5
      omega
    · exact hp
    · intro y hy
      apply h.keys y
      rw [entries, ← hent]
      exact Multiset.mem_cons_of_mem hy
  have hnext : next t.bucketCount it = (t.bucketCount - (t.bucketCount - (it + 1))) %
      t.bucketCount := by
    rw [next]
    congr 1
    omega
  rw [hnext] at hs
  have hfirst {b : ℕ} (hlt : ringDist t.bucketCount o b < ringDist t.bucketCount o it) :
      Function.update t.nodes it none b = t.nodes b := by
    rw [Function.update_of_ne]
    rintro rfl
    exact lt_irrefl _ hlt
  unfold Table.eraseNode
  obtain ⟨nodes, hr, hp, he, hb⟩ | ⟨nodes, it', hr, hsw, he, hle, hb⟩ :=
    shiftToEnd_spec h.home_lt (by omega) hs (by omega)
  · obtain ⟨ha, hc⟩ := hres hp he
    exact ⟨_, by simp only [hr], ha, hc, rfl, fun b hlt ↦ (hb b hlt).trans (hfirst hlt)⟩
  · have hahead := hsw.stop_ahead
    have hlt := hsw.hole_lt
    have hoe := hsw.stop_ne
    have hw : Wrapped t.bucketCount it' it' t.bucketCount o := by
      refine ⟨Or.inl ⟨hlt, rfl, ?_⟩, hlt, le_rfl, by omega, ho⟩
      have hte := hsw.test_ne
      unfold ringDist at hahead
      split_ifs at hahead <;> omega
    have hfuel : t.bucketCount + o < t.bucketCount + t.bucketCount := by omega
    obtain ⟨nodes', hr', hp, he', hb'⟩ :=
      shiftWrapped_spec h.home_lt hw hfuel (by simpa using hsw)
    obtain ⟨ha, hc⟩ := hres hp (he'.trans he)
    refine ⟨_, by simp only [hr, hr'], ha, hc, rfl, fun b hlt ↦ ?_⟩
    exact (hb' b (hlt.trans_le hle)).trans ((hb b hlt).trans (hfirst hlt))

/-- `erase_node` takes out its node and nothing else, and keeps the probing invariant. -/
theorem Allocated.eraseNode (h : Allocated T t) {it : ℕ} (hit : it < t.bucketCount) {x : K × V}
    (hx : t.nodes it = some x) :
    ∃ t', t.eraseNode T it = .ok t' ∧ Allocated T t' ∧ x ::ₘ t'.entries = t.entries := by
  obtain ⟨o, ho, hoc⟩ := h.exists_empty
  obtain ⟨t', he, ha, hent, -⟩ := h.eraseNode_before hit hx ho hoc
  exact ⟨t', he, ha, hent⟩

theorem Models.invalidateIterators {m : K → Option V} (hs : Allocated T t)
    (hr : T.Represents t.entries m) : Models T t.invalidateIterators m where
  shape := Or.inr ⟨hs.allocated, hs.count, hs.mask, hs.used, hs.load, hs.probing, hs.keys⟩
  begin_ok := Or.inl rfl
  represents := hr

/-- The size that `try_shrink` asks for is not too loaded. -/
theorem exists_normalize (size : ℕ) :
    ∃ k, 3 ≤ k ∧ normalizeFlatHashTableSize size = 2 ^ k ∧ size < 2 ^ k := by
  have hlog := Nat.lt_pow_succ_log_self (b := 2) (by omega) size
  rw [← Nat.log2_eq_log_two] at hlog
  unfold normalizeFlatHashTableSize
  rw [Nat.one_shiftLeft]
  rcases le_or_gt 3 (Nat.log2 size + 1) with h | h
  · refine ⟨_, h, ?_, hlog⟩
    exact max_eq_left (Nat.pow_le_pow_right (n := 2) (by omega) h)
  · have hle : 2 ^ (Nat.log2 size + 1) ≤ 2 ^ 3 := Nat.pow_le_pow_right (by omega) h.le
    exact ⟨3, le_rfl, max_eq_right hle, by omega⟩

/-- `try_shrink` changes no entry. -/
theorem Allocated.tryShrink {m : K → Option V} (h : Allocated T t)
    (hr : T.Represents t.entries m) : t.tryShrink T = .error .tooLarge ∨
      ∃ t', t.tryShrink T = .ok t' ∧ Models T t' m ∧ t'.entries = t.entries := by
  unfold Table.tryShrink
  by_cases hs : t.usedNodeCount * 10 < t.bucketCountMask ∧ t.bucketCountMask > 7
  swap
  · right
    exact ⟨_, by rw [if_neg hs]; rfl, .invalidateIterators h hr, rfl⟩
  rw [if_pos hs]
  obtain ⟨k, hk, he, hlt⟩ := exists_normalize ((t.usedNodeCount + 1) * 5 / 3 + 1)
  rw [he]
  rcases resize_spec (Or.inr h) hk (by omega) with hr' | ⟨t', hr', ha', he', -⟩
  · left
    rw [hr']
    rfl
  · right
    refine ⟨t'.invalidateIterators, by rw [hr']; rfl, .invalidateIterators ha' ?_, he'⟩
    rw [he']
    exact hr

end Table

end PxcCore.FlatHashTable
