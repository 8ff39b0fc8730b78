import PxcCore.Utils.FlatHashTable.Fill

/-!
# The sizes of arrays

Every array passes the `CHECK` of `allocate_nodes`, so what a run makes of empty tables has arrays
of at most `maxBucketCount` buckets.
-/

namespace PxcCore.FlatHashTable

open Lib LinearProbing Buckets

variable {K V : Type} {T : Traits K}

namespace Table

variable {t t' : Table K V}

/-! ## One operation -/

theorem resize_bucketCount {size : ℕ} (h : t.resize T size = .ok t') :
    t'.bucketCount = size ∧ size ≤ maxBucketCount T := by
  have hmax : size ≤ maxBucketCount T := by
    by_contra hlt
    rw [resize_tooLarge (not_le.1 hlt)] at h
    cases h
  have hs : t.allocateNodes T size = .ok (t.freshNodes size) := if_pos hmax
  refine ⟨?_, hmax⟩
  cases hall : t.allocated with
  | false =>
    rw [resize, hall, hs] at h
    cases h
    rfl
  | true =>
    have hfold (l : List (K × V)) {t₁ : Table K V} (hl : l.foldlM (placeNode T) t₁ = .ok t') :
        t'.bucketCount = t₁.bucketCount := by
      induction l generalizing t₁ with
      | nil =>
        cases hl
        rfl
      | cons node l ih =>
        obtain ⟨t₂, hp, hl⟩ := bind_eq_ok.1 hl
        rw [ih hl]
        rw [placeNode] at hp
        split at hp
        · cases hp
        · cases hp
          rfl
    rw [resize, hall, hs] at h
    exact hfold _ h

theorem Models.emplace_le_max {m : K → Option V} (h : Models T t m)
    (hmax : t.bucketCount ≤ maxBucketCount T) {key : K} (hk : T.isHashTableKeyEmpty key = false)
    {value : V} {b : ℕ × Bool} (hr : t.emplace T key value = .ok (b, t')) :
    t'.bucketCount ≤ maxBucketCount T := by
  have added {count : ℕ} (hcount : count ≤ maxBucketCount T)
      (ha : Added T t key value count (t.emplace T key value)) :
      t'.bucketCount ≤ maxBucketCount T := by
    obtain ⟨b', t'', hr', -, -, -, hc⟩ := ha
    rw [hr] at hr'
    cases hr'
    exact hc.trans_le hcount
  have full {count : ℕ} (hspec : (count ≤ maxBucketCount T →
        Added T t key value count (t.emplace T key value)) ∧
      (maxBucketCount T < count → t.emplace T key value = .error .tooLarge)) :
      t'.bucketCount ≤ maxBucketCount T := by
    rcases le_or_gt count (maxBucketCount T) with hle | hlt
    · exact added hle (hspec.1 hle)
    · rw [hspec.2 hlt] at hr
      cases hr
  rcases h.shape with rfl | ha
  · exact full (emplace_init hk value)
  by_cases hall : ∀ x ∈ t.entries, T.eq x.1 key = false
  · by_cases hl : t.usedNodeCount * 5 < t.bucketCountMask * 3
    · exact added hmax (ha.emplaceRec_room hk hall hl 1 value)
    · exact full (ha.emplaceRec_full hk hall (not_lt.1 hl) 0 value)
  · push Not at hall
    obtain ⟨x, hx, he⟩ := hall
    obtain ⟨b', hr'⟩ := ha.emplaceRec_found hk hx (by simpa using he) 1 value
    rw [Table.emplace, hr'] at hr
    cases hr
    exact hmax

/-- A new key meets the `CHECK` only when the array is three fifths full and cannot be doubled. -/
theorem Models.emplace_ok {m : K → Option V} (h : Models T t m) {key : K}
    (hk : T.isHashTableKeyEmpty key = false) (value : V) {k : ℕ}
    (hsize : t.size * 5 < (2 ^ k - 1) * 3) (hk3 : 3 ≤ k) (hmax : 2 ^ k ≤ maxBucketCount T) :
    t.emplace T key value ≠ .error .tooLarge := by
  have h8 : 2 ^ 3 ≤ 2 ^ k := Nat.pow_le_pow_right (by omega) hk3
  have hok {count : ℕ} (ha : Added T t key value count (t.emplace T key value)) :
      t.emplace T key value ≠ .error .tooLarge := by
    obtain ⟨b, t', hr, -⟩ := ha
    rw [hr]
    exact fun he ↦ by cases he
  rcases h.shape with rfl | ha
  · exact hok ((emplace_init hk value).1 (h8.trans hmax))
  by_cases hall : ∀ x ∈ t.entries, T.eq x.1 key = false
  · by_cases hl : t.usedNodeCount * 5 < t.bucketCountMask * 3
    · exact hok (ha.emplaceRec_room hk hall hl 1 value)
    · refine hok ((ha.emplaceRec_full hk hall (not_lt.1 hl) 0 value).1 (le_trans ?_ hmax))
      obtain ⟨j, -, -, hcount⟩ := ha.count
      have hmask := ha.mask
      have hj : j < k := by
        by_contra hge
        have hle : 2 ^ k ≤ 2 ^ j := Nat.pow_le_pow_right (by omega) (not_lt.1 hge)
        rw [Table.size] at hsize
        omega
      rw [hcount, ← Nat.pow_succ']
      exact Nat.pow_le_pow_right (by omega) hj
  · push Not at hall
    obtain ⟨x, hx, he⟩ := hall
    obtain ⟨b, hr⟩ := ha.emplaceRec_found hk hx (by simpa using he) 1 value
    rw [Table.emplace, hr]
    exact fun he ↦ by cases he

theorem tryShrink_le_max (hmax : t.bucketCount ≤ maxBucketCount T)
    (h : t.tryShrink T = .ok t') : t'.bucketCount ≤ maxBucketCount T := by
  rw [tryShrink] at h
  split_ifs at h
  · obtain ⟨t₁, hr, h⟩ := bind_eq_ok.1 h
    cases h
    obtain ⟨hc, hle⟩ := resize_bucketCount hr
    exact hc.trans_le hle
  · cases h
    exact hmax

theorem eraseNode_bucketCount {it : ℕ} (h : t.eraseNode T it = .ok t') :
    t'.bucketCount = t.bucketCount := by
  rw [eraseNode] at h
  dsimp only at h
  split at h
  · cases h
    rfl
  · split at h
    · cases h
    · cases h
      rfl

theorem eraseIterator_le_max (hmax : t.bucketCount ≤ maxBucketCount T) {it : ℕ}
    (h : t.eraseIterator T it = .ok t') : t'.bucketCount ≤ maxBucketCount T := by
  rw [eraseIterator] at h
  split_ifs at h
  · obtain ⟨t₁, he, h⟩ := bind_eq_ok.1 h
    exact tryShrink_le_max ((eraseNode_bucketCount he).trans_le hmax) h
  · cases h

theorem erase_le_max (hmax : t.bucketCount ≤ maxBucketCount T) {key : K} {n : ℕ}
    (h : t.erase T key = .ok (n, t')) : t'.bucketCount ≤ maxBucketCount T := by
  rw [erase] at h
  obtain ⟨node, -, h⟩ := bind_eq_ok.1 h
  cases node with
  | none =>
    cases h
    exact hmax
  | some node =>
    obtain ⟨t₁, he, h⟩ := bind_eq_ok.1 h
    obtain ⟨t₂, hs, h⟩ := bind_eq_ok.1 h
    cases h
    exact tryShrink_le_max ((eraseNode_bucketCount he).trans_le hmax) hs

theorem reserve_le_max (hmax : t.bucketCount ≤ maxBucketCount T) {size : ℕ}
    (h : t.reserve T size = .ok t') : t'.bucketCount ≤ maxBucketCount T := by
  rw [reserve] at h
  split_ifs at h
  · cases h
    exact hmax
  · cases h
  · dsimp only at h
    split_ifs at h
    · obtain ⟨hc, hle⟩ := resize_bucketCount h
      exact hc.trans_le hle
    · cases h
      exact hmax

/-- A size that is asked for is at most doubled. -/
theorem normalize_le {size : ℕ} (h : size ≠ 0) :
    normalizeFlatHashTableSize size ≤ max (2 * size) 8 := by
  have hlog := Nat.log2_self_le h
  rw [normalizeFlatHashTableSize, Nat.one_shiftLeft, Nat.pow_succ]
  omega

/-- Shrinking asks for less than there is, so it passes the `CHECK`. -/
theorem Allocated.tryShrink_ok {m : K → Option V} (h : Allocated T t)
    (hr : T.Represents t.entries m) (hmax : t.bucketCount ≤ maxBucketCount T) :
    ∃ t', t.tryShrink T = .ok t' ∧ Models T t' m ∧ t'.entries = t.entries ∧
      t'.bucketCount ≤ maxBucketCount T := by
  obtain hs | ⟨t', hs, hm, hent⟩ := h.tryShrink hr
  · exfalso
    rw [Table.tryShrink] at hs
    split_ifs at hs with hless
    · have hmask := h.mask
      have hle := @normalize_le ((t.usedNodeCount + 1) * 5 / 3 + 1) (Nat.succ_ne_zero _)
      cases hres : t.resize T (normalizeFlatHashTableSize ((t.usedNodeCount + 1) * 5 / 3 + 1)) with
      | ok t' =>
        rw [hres] at hs
        cases hs
      | error fault =>
        rw [hres] at hs
        cases hs
        refine resize_ne_tooLarge (le_trans ?_ hmax) hres
        omega
    · cases hs
  · exact ⟨t', hs, hm, hent, tryShrink_le_max hmax hs⟩

/-- `begin` writes its bucket down and changes nothing else. -/
theorem beginImpl_eq {random : UInt32} {b : Option ℕ} (h : t.beginImpl random = .ok (b, t')) :
    ∃ bucket, t' = { t with beginBucket := bucket } := by
  rw [beginImpl] at h
  split_ifs at h
  · cases h
    exact ⟨t.beginBucket, rfl⟩
  · split at h
    · cases h
    · cases h
      exact ⟨_, rfl⟩
  · cases h
    exact ⟨t.beginBucket, rfl⟩

end Table

/-! ## Runs -/

section

variable {ι : Type} [DecidableEq ι] [Inhabited V]

/-- Every table of a run has an array that `allocate_nodes` allows. -/
theorem step_le_max {tables tables' : ι → Table K V} {m : ι → K → Option V}
    (h : ∀ i, Table.Models T (tables i) (m i))
    (hmax : ∀ i, (tables i).bucketCount ≤ maxBucketCount T) {op : Op T V ι} {r : Result K V}
    (hr : step T tables op = .ok (r, tables')) (i : ι) :
    (tables' i).bucketCount ≤ maxBucketCount T := by
  have hup (j : ι) {t : Table K V} (ht : t.bucketCount ≤ maxBucketCount T) (i : ι) :
      (Function.update tables j t i).bucketCount ≤ maxBucketCount T := by
    rw [Function.update_apply]
    split_ifs
    · exact ht
    · exact hmax i
  cases op with
  | emplace j key value =>
    obtain ⟨⟨⟨b, inserted⟩, t⟩, he, hr⟩ := bind_eq_ok.1 hr
    cases hr
    exact hup j ((h j).emplace_le_max (hmax j) key.2 he) i
  | subscript j key =>
    obtain ⟨⟨⟨b, inserted⟩, t⟩, he, hr⟩ := bind_eq_ok.1 hr
    cases hr
    exact hup j ((h j).emplace_le_max (hmax j) key.2 he) i
  | eraseIterator j bucket =>
    obtain ⟨t, he, hr⟩ := bind_eq_ok.1 hr
    cases hr
    exact hup j (Table.eraseIterator_le_max (hmax j) he) i
  | erase j key =>
    obtain ⟨⟨n, t⟩, he, hr⟩ := bind_eq_ok.1 hr
    cases hr
    exact hup j (Table.erase_le_max (hmax j) he) i
  | find j key =>
    obtain ⟨value, -, hr⟩ := bind_eq_ok.1 hr
    cases hr
    exact hmax i
  | count j key =>
    obtain ⟨n, -, hr⟩ := bind_eq_ok.1 hr
    cases hr
    exact hmax i
  | clear j =>
    cases hr
    refine hup j ?_ i
    rw [Table.clear]
    split_ifs
    · exact Nat.zero_le _
    · exact hmax j
  | reserve j size =>
    obtain ⟨t, he, hr⟩ := bind_eq_ok.1 hr
    cases hr
    exact hup j (Table.reserve_le_max (hmax j) he) i
  | begin j random =>
    obtain ⟨⟨b, t⟩, he, hr⟩ := bind_eq_ok.1 hr
    cases hr
    obtain ⟨bucket, rfl⟩ := Table.beginImpl_eq he
    refine hup j ?_ i
    exact hmax j
  | swap j l =>
    cases hr
    simp only [Function.update_apply]
    split_ifs
    · exact hmax j
    · exact hmax l
    · exact hmax i
  | move dst src hne =>
    cases hr
    simp only [Function.update_apply]
    split_ifs with hsrc hdst he
    · exact Nat.zero_le _
    · exact (hne he.symm).elim
    · exact hmax src
    · exact hmax i

/-- What a run makes of empty tables. -/
theorem run_le_max {tables tables' : ι → Table K V} {m : ι → K → Option V}
    (h : ∀ i, Table.Models T (tables i) (m i))
    (hmax : ∀ i, (tables i).bucketCount ≤ maxBucketCount T) {ops : List (Op T V ι)}
    {rs : List (Result K V)} (hr : run T ops tables = .ok (rs, tables')) (i : ι) :
    (∃ m', Table.Models T (tables' i) m') ∧ (tables' i).bucketCount ≤ maxBucketCount T := by
  induction ops generalizing tables m rs with
  | nil =>
    cases hr
    exact ⟨⟨m i, h i⟩, hmax i⟩
  | cons op ops ih =>
    obtain ⟨⟨r, tables₁⟩, hs, hr⟩ := bind_eq_ok.1 hr
    obtain ⟨⟨rs₁, tables₂⟩, hr', hr⟩ := bind_eq_ok.1 hr
    cases hr
    obtain he | he | ⟨r', tables₁', he, -, hm⟩ := step_spec h op
    · rw [hs] at he
      cases he
    · rw [hs] at he
      cases he
    · rw [hs] at he
      cases he
      exact ih hm (step_le_max h hmax hs) hr'

end

end PxcCore.FlatHashTable
