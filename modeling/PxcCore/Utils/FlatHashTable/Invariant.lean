import PxcCore.Utils.FlatHashTable.Table

/-!
# The invariant of `FlatHashTable`

A table is either as the default constructor leaves it or has a power-of-two array of buckets in
which every node is reached from its own bucket (`Allocated`).  There is one lemma for each
function of the table: when it does not hit the `CHECK` on the allocation size it returns, keeps
the invariant, and does to the entries what its name says.
-/

namespace PxcCore.FlatHashTable

open Lib LinearProbing Buckets

variable {K V : Type} (T : Traits K)

/-- The bucket a node belongs to. -/
def home (mask : ℕ) (node : K × V) : ℕ := calcBucket T mask node.1

namespace Table

/-- The nodes of the table. -/
def entries (t : Table K V) : Multiset (K × V) := contents t.bucketCount t.nodes

/-- What holds of a table with an array of buckets. -/
structure Allocated (t : Table K V) : Prop where
  allocated : t.allocated = true
  count : ∃ k, 3 ≤ k ∧ k ≤ 29 ∧ t.bucketCount = 2 ^ k
  mask : t.bucketCountMask = t.bucketCount - 1
  used : t.usedNodeCount = t.entries.card
  load : t.usedNodeCount * 5 < t.bucketCountMask * 3 + 5
  probing : Probing t.bucketCount (home T t.bucketCountMask) t.nodes
  keys : ∀ x ∈ t.entries, T.isHashTableKeyEmpty x.1 = false

/-- The invariant of every table that the operations can make. -/
structure Inv (t : Table K V) : Prop where
  shape : t = {} ∨ Allocated T t
  begin_ok : t.beginBucket = invalidBucket ∨ t.usedNodeCount = 0 ∨
    (t.beginBucket < t.bucketCount ∧ (t.nodes t.beginBucket).isSome)

/-- The table satisfies its invariant and holds the map `m`. -/
structure Models (t : Table K V) (m : K → Option V) : Prop extends Inv T t where
  represents : T.Represents t.entries m

end Table

/-! ## Buckets -/

theorem calcBucket_lt {mask n : ℕ} (h : mask = n - 1) (hn : 0 < n) (key : K) :
    calcBucket T mask key < n := by
  have := Nat.and_le_right (n := (T.hash key).toNat) (m := mask)
  unfold calcBucket
  omega

theorem nextBucket_eq {mask n k : ℕ} (hn : n = 2 ^ k) (h : mask = n - 1) :
    nextBucket mask = next n := by
  funext b
  rw [nextBucket, next, h, hn, Nat.and_two_pow_sub_one_eq_mod]

variable {T}

theorem calcBucket_congr {a b : K} (h : T.eq a b = true) (mask : ℕ) :
    calcBucket T mask a = calcBucket T mask b := by rw [calcBucket, calcBucket, T.hash_eq h]

namespace Table

variable {t : Table K V} {m : K → Option V}

theorem Allocated.eight_le (h : Allocated T t) : 8 ≤ t.bucketCount := by
  obtain ⟨k, hk, -, he⟩ := h.count
  have := Nat.pow_le_pow_right (n := 2) (by omega) hk
  omega

theorem Allocated.home_lt (h : Allocated T t) (node : K × V) :
    home T t.bucketCountMask node < t.bucketCount :=
  calcBucket_lt T h.mask (by have := h.eight_le; omega) _

theorem Allocated.next_eq (h : Allocated T t) :
    nextBucket t.bucketCountMask = next t.bucketCount := by
  obtain ⟨k, -, -, he⟩ := h.count
  exact nextBucket_eq he h.mask

/-- There is always an empty bucket, and another one when one node less is counted. -/
theorem Allocated.used_lt (h : Allocated T t) : t.usedNodeCount < t.bucketCount := by
  have := h.load
  have := h.mask
  have := h.eight_le
  omega

theorem Allocated.exists_empty (h : Allocated T t) : ∃ b < t.bucketCount, t.nodes b = none :=
  Buckets.exists_empty (by have := h.used; have := h.used_lt; rw [entries] at *; omega)

/-- No product of the code needs more than 32 bits. -/
theorem Allocated.products_lt (h : Allocated T t) :
    t.usedNodeCount * 10 < 2 ^ 32 ∧ t.bucketCountMask * 3 < 2 ^ 32 ∧
      2 * t.bucketCount < 2 ^ 32 := by
  obtain ⟨k, -, hk, he⟩ := h.count
  have hp : 2 ^ k ≤ 2 ^ 29 := Nat.pow_le_pow_right (by omega) hk
  have := h.load
  have := h.mask
  omega

/-! ## Searching a key -/

/-- The walk of `find_impl` and `emplace` ends at a node with an equal key or, if there is none, at
the first empty bucket behind the key's own. -/
theorem Allocated.search (h : Allocated T t) (key : K) :
    ∃ b < t.bucketCount, probe (nextBucket t.bucketCountMask)
        (fun b ↦ (t.nodes b).all fun node ↦ T.eq node.1 key) t.bucketCount
        (calcBucket T t.bucketCountMask key) = some b ∧
      ((∃ x, t.nodes b = some x ∧ T.eq x.1 key = true) ∨
        t.nodes b = none ∧ (∀ x ∈ t.entries, T.eq x.1 key = false) ∧
          ∀ x < t.bucketCount, ringDist t.bucketCount (calcBucket T t.bucketCountMask key) x <
            ringDist t.bucketCount (calcBucket T t.bucketCountMask key) b → t.nodes x ≠ none) := by
  have hlt : calcBucket T t.bucketCountMask key < t.bucketCount :=
    calcBucket_lt T h.mask (by have := h.eight_le; omega) key
  have hstop : ∃ b < t.bucketCount,
      (t.nodes b).all (fun node ↦ T.eq node.1 key) = true := by
    obtain ⟨b, hb, hn⟩ := h.exists_empty
    exact ⟨b, hb, by simp [hn]⟩
  obtain ⟨b, hb, hp, hs, hv⟩ := probe_next hlt hstop
  rw [h.next_eq]
  refine ⟨b, hb, hp, ?_⟩
  cases hx : t.nodes b with
  | some x =>
    left
    exact ⟨x, rfl, by simpa [hx] using hs⟩
  | none =>
    right
    refine ⟨rfl, ?_, ?_⟩
    · intro x hm
      obtain ⟨d, hd, hdx⟩ := mem_contents.1 hm
      by_contra hne
      rw [Bool.not_eq_false] at hne
      have hh : home T t.bucketCountMask x = calcBucket T t.bucketCountMask key :=
        calcBucket_congr hne _
      have hdb := h.probing.lt_of_none hd hb hdx (h.home_lt x) hx
      rw [hh] at hdb
      have := hv d hd hdb
      simp [hdx, hne] at this
    · intro x hx' hlt' hn
      have := hv x hx' hlt'
      simp [hn] at this

theorem Models.find_none (h : Models T t m) {key : K} (he : T.isHashTableKeyEmpty key = true) :
    m key = none := by
  rw [h.represents.eq_none_iff]
  intro x hx
  rcases h.shape with rfl | ha
  · simp [entries, contents] at hx
  · by_contra hne
    have hk := ha.keys x hx
    rw [Bool.not_eq_false] at hne
    rw [HashTraits.isHashTableKeyEmpty, T.trans hne he] at hk
    exact absurd hk (by decide)

/-- `find_impl` returns the node with an equal key, or nothing if the map has no such key. -/
theorem Models.findImpl (h : Models T t m) (key : K) :
    (t.findImpl T key = .ok none ∧ m key = none) ∨
      ∃ b x, t.findImpl T key = .ok (some b) ∧ Allocated T t ∧ b < t.bucketCount ∧
        t.nodes b = some x ∧ T.eq x.1 key = true ∧ m key = some x.2 := by
  by_cases he : T.isHashTableKeyEmpty key = true
  · left
    exact ⟨by simp [Table.findImpl, he], h.find_none he⟩
  rcases h.shape with rfl | ha
  · left
    refine ⟨by simp [Table.findImpl], ?_⟩
    rw [h.represents.eq_none_iff]
    simp [entries, contents]
  obtain ⟨b, hb, hp, ⟨x, hx, hk⟩ | ⟨hn, hall, -⟩⟩ := ha.search key
  · right
    refine ⟨b, x, ?_, ha, hb, hx, hk, h.represents.of_mem (mem_contents.2 ⟨b, hb, hx⟩) hk⟩
    simp [Table.findImpl, ha.allocated, he, hp, hx]
  · left
    refine ⟨?_, (h.represents.eq_none_iff key).2 hall⟩
    simp [Table.findImpl, ha.allocated, he, hp, hn]

end Table

end PxcCore.FlatHashTable
