import PxcCore.Utils.FlatHashTable.Invariant

/-!
# The operations of `FlatHashTable` keep its invariant

One lemma for each operation that changes a table: it stops at the `CHECK` on the allocation size,
or returns a table for the changed map.
-/

namespace PxcCore.FlatHashTable

open Lib LinearProbing Buckets

variable {K V : Type} {T : Traits K}

namespace Table

variable {t : Table K V} {m : K → Option V}

/-! ## `resize` -/

/-- One round of the loop of `resize`, on an array with an empty bucket. -/
theorem placeNode_spec {k : ℕ} (hn : t.bucketCount = 2 ^ k)
    (hm : t.bucketCountMask = t.bucketCount - 1)
    (hp : Probing t.bucketCount (home T t.bucketCountMask) t.nodes)
    (hc : t.entries.card < t.bucketCount) (node : K × V) :
    ∃ nodes, t.placeNode T node = .ok { t with nodes := nodes } ∧
      Probing t.bucketCount (home T t.bucketCountMask) nodes ∧
      contents t.bucketCount nodes = node ::ₘ t.entries := by
  obtain ⟨d, hd, hde⟩ := Buckets.exists_empty hc
  have hlt := calcBucket_lt T hm (by omega) node.1
  have hex : ∃ d < t.bucketCount, (fun b ↦ (t.nodes b).isNone) d = true := ⟨d, hd, by simp [hde]⟩
  obtain ⟨b, hb, hpr, hs, hv⟩ := probe_next hlt hex
  refine ⟨Function.update t.nodes b (some node), ?_, ?_, ?_⟩
  · simp [placeNode, nextBucket_eq hn hm, hpr]
  · apply hp.insert
    intro x hx hxd hxn
    have := hv x hx hxd
    simp [hxn] at this
  · exact contents_update_some hb (by simpa using hs) node

/-- The loop of `resize` moves all the nodes over. -/
theorem placeNodes_spec {k : ℕ} (hn : t.bucketCount = 2 ^ k)
    (hm : t.bucketCountMask = t.bucketCount - 1)
    (hp : Probing t.bucketCount (home T t.bucketCountMask) t.nodes) (l : List (K × V))
    (hc : t.entries.card + l.length < t.bucketCount) :
    ∃ nodes, l.foldlM (placeNode T) t = .ok { t with nodes := nodes } ∧
      Probing t.bucketCount (home T t.bucketCountMask) nodes ∧
      contents t.bucketCount nodes = (l : Multiset (K × V)) + t.entries := by
  induction l generalizing t with
  | nil => exact ⟨t.nodes, rfl, hp, by simp [entries]⟩
  | cons node l ih =>
    rw [List.length_cons] at hc
    obtain ⟨nodes, hr, hp', hc'⟩ := placeNode_spec hn hm hp (by omega) node
    obtain ⟨nodes', hr', hp'', hc''⟩ := ih (t := { t with nodes := nodes }) hn hm hp'
      (by
        rw [entries, hc', Multiset.card_cons]
        change _ < t.bucketCount
        omega)
    refine ⟨nodes', ?_, hp'', ?_⟩
    · rw [List.foldlM_cons, hr]
      exact hr'
    · rw [hc'', entries, hc', ← Multiset.cons_coe, Multiset.cons_add, Multiset.add_cons]

/-- A table whose buckets have just been allocated. -/
def freshNodes (t : Table K V) (size : ℕ) : Table K V :=
  { t with
    nodes := fun _ ↦ none, allocated := true, bucketCountMask := size - 1, bucketCount := size
    beginBucket := invalidBucket }

theorem allocateNodes_cases (t : Table K V) (size : ℕ) :
    (t.allocateNodes T size = .error .tooLarge) ∨
      t.allocateNodes T size = .ok (t.freshNodes size) ∧ size ≤ 1 <<< 29 := by
  by_cases hs : size ≤ min (1 <<< 29) (0x7FFFFFFF / T.sizeofNode)
  · right
    exact ⟨if_pos hs, hs.trans (min_le_left _ _)⟩
  · left
    exact if_neg hs

/-- `resize` to a power of two that is not too loaded. -/
theorem resize_spec (h : t = {} ∨ Allocated T t) {k : ℕ} (hk : 3 ≤ k)
    (hl : t.usedNodeCount * 5 < (2 ^ k - 1) * 3 + 5) :
    t.resize T (2 ^ k) = .error .tooLarge ∨
      ∃ t', t.resize T (2 ^ k) = .ok t' ∧ Allocated T t' ∧ t'.entries = t.entries ∧
        t'.usedNodeCount = t.usedNodeCount ∧ t'.bucketCount = 2 ^ k ∧
        t'.beginBucket = invalidBucket := by
  have h8 := Nat.pow_le_pow_right (n := 2) (by omega) hk
  rcases t.allocateNodes_cases (T := T) (2 ^ k) with hs | ⟨hs, hle⟩
  · left
    cases hall : t.allocated <;> simp [Table.resize, hs, hall]
  right
  have hk' : k ≤ 29 := (Nat.pow_le_pow_iff_right (by omega)).1 hle
  rcases h with rfl | ha
  · refine ⟨{ Table.freshNodes ({} : Table K V) (2 ^ k) with usedNodeCount := 0 }, ?_, ?_, ?_, rfl,
      rfl, rfl⟩
    · simp [Table.resize, hs]
    · exact
        { allocated := rfl
          count := ⟨k, hk, hk', rfl⟩
          mask := rfl
          used := by simp [entries, freshNodes]
          load := by simp
          probing := .none
          keys := by simp [entries, freshNodes] }
    · simp [entries, freshNodes]
  · have hlen : ((List.range t.bucketCount).filterMap t.nodes).length = t.usedNodeCount := by
      rw [ha.used]
      rfl
    have hcard : (t.freshNodes (2 ^ k)).entries.card +
        ((List.range t.bucketCount).filterMap t.nodes).length < 2 ^ k := by
      rw [hlen]
      simp only [entries, freshNodes, contents_none, Multiset.card_zero]
      omega
    obtain ⟨nodes, hr, hp, hc⟩ := placeNodes_spec (t := t.freshNodes (2 ^ k)) rfl rfl .none _ hcard
    have hent : contents (2 ^ k) nodes = t.entries := by
      rw [entries, freshNodes, contents_none, add_zero] at hc
      exact hc
    refine ⟨{ t.freshNodes (2 ^ k) with nodes := nodes }, ?_, ?_, hent, rfl, rfl, rfl⟩
    · simpa [Table.resize, hs, ha.allocated] using hr
    · exact
        { allocated := rfl
          count := ⟨k, hk, hk', rfl⟩
          mask := rfl
          used := ha.used.trans (congrArg _ hent.symm)
          load := hl
          probing := hp
          keys := fun x hx ↦ ha.keys x (hent ▸ hx) }

/-! ## `emplace` -/

theorem Allocated.mask_ne (h : Allocated T t) : t.bucketCountMask ≠ 0 := by
  have := h.mask
  have := h.eight_le
  omega

/-- What `emplace` does once there is an array of buckets. -/
theorem emplaceRec_succ {key : K} (hk : T.isHashTableKeyEmpty key = false)
    (hm : t.bucketCountMask ≠ 0) (depth : ℕ) (value : V) :
    emplaceRec T (depth + 1) t key value =
      match probe (nextBucket t.bucketCountMask)
          (fun b ↦ (t.nodes b).all fun node ↦ T.eq node.1 key) t.bucketCount
          (calcBucket T t.bucketCountMask key) with
      | none => .error .fuel
      | some b =>
        if (t.nodes b).isSome then .ok ((b, false), t)
        else if t.usedNodeCount * 5 ≥ t.bucketCountMask * 3 then do
          let t ← t.resize T (2 * t.bucketCount)
          if ¬(t.usedNodeCount * 5 < t.bucketCountMask * 3) then throw .check
          emplaceRec T depth t key value
        else .ok ((b, true), { t.invalidateIterators with
          nodes := Function.update t.nodes b (some (key, value))
          usedNodeCount := t.usedNodeCount + 1 }) := by
  rw [emplaceRec]
  simp only [hk, hm, Bool.false_eq_true, if_false, pure_bind]
  rfl

/-- `emplace` has returned: the node is in the table, with the value the map has for the key. -/
def Emplaced (T : Traits K) (m : K → Option V) (key : K) (value : V)
    (r : Except Fault ((ℕ × Bool) × Table K V)) : Prop :=
  ∃ b t', r = .ok ((b, (m key).isNone), t') ∧ Models T t' (T.emplace m key value) ∧
    (t'.nodes b).map Prod.snd = T.emplace m key value key

/-- The table with a new node in bucket `b`. -/
def withNode (t : Table K V) (b : ℕ) (node : K × V) : Table K V :=
  { t.invalidateIterators with
    nodes := Function.update t.nodes b (some node), usedNodeCount := t.usedNodeCount + 1 }

theorem entries_withNode {b : ℕ} (hb : b < t.bucketCount) (hn : t.nodes b = none) (node : K × V) :
    (t.withNode b node).entries = node ::ₘ t.entries := contents_update_some hb hn node

theorem Allocated.withNode (ha : Allocated T t) {b : ℕ} (hb : b < t.bucketCount)
    (hn : t.nodes b = none) {key : K} (hk : T.isHashTableKeyEmpty key = false)
    (hl : t.usedNodeCount * 5 < t.bucketCountMask * 3)
    (hv : ∀ x < t.bucketCount, ringDist t.bucketCount (calcBucket T t.bucketCountMask key) x <
      ringDist t.bucketCount (calcBucket T t.bucketCountMask key) b → t.nodes x ≠ none)
    (value : V) :
    Allocated T (t.withNode b (key, value)) where
  allocated := ha.allocated
  count := ha.count
  mask := ha.mask
  used := by
    rw [entries_withNode hb hn, Multiset.card_cons, ← ha.used]
    rfl
  load := by
    simp only [Table.withNode, invalidateIterators]
    omega
  probing := ha.probing.insert hv
  keys := by
    rw [entries_withNode hb hn]
    intro x hx
    rcases Multiset.mem_cons.1 hx with rfl | hx
    · exact hk
    · exact ha.keys x hx

theorem Models.withNode (h : Models T t m) (ha : Allocated T t) {b : ℕ} (hb : b < t.bucketCount)
    (hn : t.nodes b = none) {key : K} (hk : T.isHashTableKeyEmpty key = false)
    (hm : m key = none) (hl : t.usedNodeCount * 5 < t.bucketCountMask * 3)
    (hv : ∀ x < t.bucketCount, ringDist t.bucketCount (calcBucket T t.bucketCountMask key) x <
      ringDist t.bucketCount (calcBucket T t.bucketCountMask key) b → t.nodes x ≠ none)
    (value : V) :
    Models T (t.withNode b (key, value)) (T.insert m key value) where
  shape := Or.inr (ha.withNode hb hn hk hl hv value)
  begin_ok := Or.inl rfl
  represents := by
    rw [entries_withNode hb hn]
    exact h.represents.insert hm value

/-- `emplace` without a second call: the key is found, or there is room for it. -/
theorem Models.emplaceRec_room (h : Models T t m) (ha : Allocated T t) {key : K}
    (hk : T.isHashTableKeyEmpty key = false) (depth : ℕ) (value : V)
    (hroom : (m key).isSome ∨ t.usedNodeCount * 5 < t.bucketCountMask * 3) :
    Emplaced T m key value (emplaceRec T (depth + 1) t key value) := by
  rw [emplaceRec_succ hk ha.mask_ne]
  obtain ⟨b, hb, hp, ⟨x, hx, he⟩ | ⟨hn, hall, hv⟩⟩ := ha.search key
  · have hm := h.represents.of_mem (mem_contents.2 ⟨b, hb, hx⟩) he
    refine ⟨b, t, ?_, ?_, ?_⟩
    · simp [hp, hx, hm]
    · rwa [T.emplace_of_some hm]
    · rw [T.emplace_of_some hm, hx, hm]
      rfl
  · have hm := (h.represents.eq_none_iff key).2 hall
    have hl : t.usedNodeCount * 5 < t.bucketCountMask * 3 := by simpa [hm] using hroom
    refine ⟨b, t.withNode b (key, value), ?_, ?_, ?_⟩
    · simp only [hp, hn, hm, Option.isSome_none, Bool.false_eq_true, if_false, ge_iff_le,
        not_le.2 hl, Option.isNone_none]
      rfl
    · rw [T.emplace_of_none hm]
      exact h.withNode ha hb hn hk hm hl hv value
    · simp [T.emplace_of_none hm, Table.withNode]

/-- `emplace` into a table with an array: it may have to double the array first. -/
theorem Models.emplaceRec_allocated (h : Models T t m) (ha : Allocated T t) {key : K}
    (hk : T.isHashTableKeyEmpty key = false) (depth : ℕ) (value : V) :
    emplaceRec T (depth + 2) t key value = .error .tooLarge ∨
      Emplaced T m key value (emplaceRec T (depth + 2) t key value) := by
  by_cases hroom : (m key).isSome ∨ t.usedNodeCount * 5 < t.bucketCountMask * 3
  · exact Or.inr (h.emplaceRec_room ha hk (depth + 1) value hroom)
  push Not at hroom
  obtain ⟨hsome, hl⟩ := hroom
  have hnone : m key = none := by simpa using hsome
  rw [emplaceRec_succ hk ha.mask_ne]
  obtain ⟨b, hb, hp, ⟨x, hx, he⟩ | ⟨hn, -, -⟩⟩ := ha.search key
  · have := h.represents.of_mem (mem_contents.2 ⟨b, hb, hx⟩) he
    simp [hnone] at this
  obtain ⟨k, hk3, -, hcount⟩ := ha.count
  have hdouble : 2 * t.bucketCount = 2 ^ (k + 1) := by rw [hcount, Nat.pow_succ, Nat.mul_comm]
  have hpow := Nat.pow_succ (n := 2) (m := k)
  have hlt := ha.used_lt
  simp only [hp, hn, Option.isSome_none, Bool.false_eq_true, if_false, hl, if_true,
    hdouble]
  rcases resize_spec h.shape (k := k + 1) (by omega) (by omega) with
    hr | ⟨t', hr, ha', he', hu, hc, hb'⟩
  · left
    rw [hr]
    rfl
  · right
    have hload : t'.usedNodeCount * 5 < t'.bucketCountMask * 3 := by
      rw [hu, ha'.mask, hc]
      have := ha.eight_le
      omega
    have hm' : Models T t' m := ⟨⟨Or.inr ha', Or.inl hb'⟩, he' ▸ h.represents⟩
    simp only [hr, ok_bind, hload, not_true_eq_false, if_false]
    exact hm'.emplaceRec_room ha' hk depth value (Or.inr hload)

/-- `emplace` into a table without an array. -/
theorem emplace_start {key : K} (hk : T.isHashTableKeyEmpty key = false) (value : V) :
    Table.emplace T ({} : Table K V) key value =
      (do
        let t ← Table.resize T ({} : Table K V) (2 ^ 3)
        emplaceRec T 2 t key value) := by
  rw [Table.emplace, emplaceRec]
  simp only [hk, Bool.false_eq_true, if_false, if_true, ne_eq, not_true_eq_false, pure_bind]
  change (Table.resize T ({} : Table K V) (2 ^ 3) >>= _) = _
  have hload : ({} : Table K V).usedNodeCount * 5 < (2 ^ 3 - 1) * 3 + 5 := by simp
  rcases resize_spec (Or.inl rfl) le_rfl hload with hr | ⟨t', hr, ha', -⟩
  · rw [hr]
    rfl
  · rw [hr, ok_bind, ok_bind, emplaceRec_succ hk ha'.mask_ne]
    rfl

/-- `emplace`. -/
theorem Models.emplace (h : Models T t m) {key : K} (hk : T.isHashTableKeyEmpty key = false)
    (value : V) : t.emplace T key value = .error .tooLarge ∨
      Emplaced T m key value (t.emplace T key value) := by
  rcases h.shape with rfl | ha
  swap
  · exact h.emplaceRec_allocated ha hk 0 value
  rw [emplace_start hk]
  rcases resize_spec h.shape (k := 3) le_rfl (by simp) with hr | ⟨t', hr, ha', he', hu, hc, hb'⟩
  · left
    rw [hr]
    rfl
  · have hm' : Models T t' m := ⟨⟨Or.inr ha', Or.inl hb'⟩, he' ▸ h.represents⟩
    rw [hr]
    exact hm'.emplaceRec_allocated ha' hk 0 value

end Table

end PxcCore.FlatHashTable
