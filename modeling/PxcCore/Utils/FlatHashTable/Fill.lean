import PxcCore.Utils.FlatHashTable.Run

/-!
# Filling a set

Keys that are put one after the other into a `FlatHashSet` that starts out empty.  The array doubles
when a new key finds it three fifths full, so whether the `CHECK` on its size is met depends on the
number of distinct keys alone (`Fits`).
-/

namespace PxcCore.FlatHashTable

open Lib LinearProbing Buckets

variable {K V : Type}

/-! ## Keys that fit -/

section

variable (T : Traits K)

/-- The largest array that `allocate_nodes` makes. -/
def maxBucketCount : ℕ := min (1 <<< 29) (0x7FFFFFFF / T.sizeofNode)

/-- There is an array for `n` keys: the last of them finds it less than three fifths full. -/
def Fits (n : ℕ) : Prop :=
  n = 0 ∨ ∃ k, 3 ≤ k ∧ 2 ^ k ≤ maxBucketCount T ∧ (n - 1) * 5 < (2 ^ k - 1) * 3

/-- Keys with one more, unless an equal one is there. -/
def addKey (keys : List K) (key : K) : List K :=
  if keys.any (T.eq · key) then keys else key :: keys

/-- One key of each class, the last ones first. -/
def distinct (keys : List K) : List K := keys.foldl (addKey T) []

/-- `insert` of one key after the other. -/
def insertAll : List K → Table K Unit → Except Fault (Table K Unit)
  | [], t => .ok t
  | key :: keys, t => do
    let (_, t) ← t.emplace T key ()
    insertAll keys t

end

variable {T : Traits K}

theorem Fits.mono {n n' : ℕ} (h : Fits T n') (hn : n ≤ n') : Fits T n := by
  obtain rfl | ⟨k, hk, hmax, hlt⟩ := h
  · exact Or.inl (Nat.le_zero.1 hn)
  · exact Or.inr ⟨k, hk, hmax, by omega⟩

theorem length_le_addKey (keys : List K) (key : K) :
    keys.length ≤ (addKey T keys key).length := by
  rw [addKey]
  split_ifs
  · exact le_rfl
  · exact Nat.le_succ _

theorem length_le_foldl_addKey (keys more : List K) :
    keys.length ≤ (more.foldl (addKey T) keys).length := by
  induction more generalizing keys with
  | nil => exact le_rfl
  | cons key more ih => exact (length_le_addKey keys key).trans (ih _)

/-- Keys that differ are all kept. -/
theorem foldl_addKey_of_pairwise {keys more : List K}
    (h : (more ++ keys).Pairwise fun a b ↦ T.eq a b = false) :
    more.foldl (addKey T) keys = more.reverse ++ keys := by
  induction more generalizing keys with
  | nil => rfl
  | cons key more ih =>
    rw [List.cons_append, List.pairwise_cons] at h
    obtain ⟨hkey, hrest⟩ := h
    have hany : keys.any (T.eq · key) = false := by
      rw [List.any_eq_false]
      intro a ha
      rw [T.eq_comm, hkey a (List.mem_append_right _ ha)]
      exact Bool.false_ne_true
    rw [List.foldl_cons, addKey, hany, if_neg Bool.false_ne_true, ih, List.reverse_cons,
      List.append_assoc]
    · rfl
    · refine (List.pairwise_middle ?_).2 (List.pairwise_cons.2 ⟨hkey, hrest⟩)
      intro a b hab
      rwa [T.eq_comm]

namespace Table

variable {t : Table K V}

/-! ## `resize` and `emplace` once more -/

theorem resize_tooLarge {size : ℕ} (h : maxBucketCount T < size) :
    t.resize T size = .error .tooLarge := by
  have hs : t.allocateNodes T size = .error .tooLarge := if_neg (not_le.2 h)
  cases hall : t.allocated <;> simp [Table.resize, hs, hall]

theorem placeNode_ne_tooLarge (t : Table K V) (node : K × V) :
    t.placeNode T node ≠ .error .tooLarge := by
  rw [placeNode]
  split <;> simp

theorem resize_ne_tooLarge {size : ℕ} (h : size ≤ maxBucketCount T) :
    t.resize T size ≠ .error .tooLarge := by
  have hs : t.allocateNodes T size = .ok (t.freshNodes size) := if_pos h
  have hfold (l : List (K × V)) (t : Table K V) :
      l.foldlM (placeNode T) t ≠ .error .tooLarge := by
    induction l generalizing t with
    | nil => exact fun h ↦ by cases h
    | cons node l ih =>
      rw [List.foldlM_cons]
      cases hp : t.placeNode T node with
      | error f =>
        intro he
        cases he
        exact t.placeNode_ne_tooLarge node hp
      | ok t' => exact ih t'
  cases hall : t.allocated with
  | false => simp [Table.resize, hs, hall]
  | true => simpa [Table.resize, hs, hall] using hfold _ _

/-- A key that is there is found. -/
theorem Allocated.emplaceRec_found (ha : Allocated T t) {key : K}
    (hk : T.isHashTableKeyEmpty key = false) {x : K × V} (hx : x ∈ t.entries)
    (he : T.eq x.1 key = true) (depth : ℕ) (value : V) :
    ∃ b, emplaceRec T (depth + 1) t key value = .ok ((b, false), t) := by
  rw [emplaceRec_succ hk ha.mask_ne]
  obtain ⟨b, hb, hp, ⟨y, hy, -⟩ | ⟨-, hall, -⟩⟩ := ha.search key
  · exact ⟨b, by simp [hp, hy]⟩
  · exact absurd ((hall x hx).symm.trans he) Bool.false_ne_true

/-- A new key has been put in, into an array of `count` buckets. -/
def Added (T : Traits K) (t : Table K V) (key : K) (value : V) (count : ℕ)
    (r : Except Fault ((ℕ × Bool) × Table K V)) : Prop :=
  ∃ b t', r = .ok (b, t') ∧ Allocated T t' ∧ t'.beginBucket = invalidBucket ∧
    t'.entries = (key, value) ::ₘ t.entries ∧ t'.bucketCount = count

/-- A new key goes into the array if there is room. -/
theorem Allocated.emplaceRec_room (ha : Allocated T t) {key : K}
    (hk : T.isHashTableKeyEmpty key = false) (hall : ∀ x ∈ t.entries, T.eq x.1 key = false)
    (hl : t.usedNodeCount * 5 < t.bucketCountMask * 3) (depth : ℕ) (value : V) :
    Added T t key value t.bucketCount (emplaceRec T (depth + 1) t key value) := by
  rw [emplaceRec_succ hk ha.mask_ne]
  obtain ⟨b, hb, hp, ⟨y, hy, he⟩ | ⟨hn, -, hv⟩⟩ := ha.search key
  · exact absurd ((hall y (mem_contents.2 ⟨b, hb, hy⟩)).symm.trans he) Bool.false_ne_true
  · refine ⟨(b, true), t.withNode b (key, value), ?_, ha.withNode hb hn hk hl hv value, rfl,
      entries_withNode hb hn _, rfl⟩
    simp only [hp, hn, Option.isSome_none, Bool.false_eq_true, if_false, ge_iff_le, not_le.2 hl]
    rfl

/-- A new key that finds no room doubles the array. -/
theorem Allocated.emplaceRec_full (ha : Allocated T t) {key : K}
    (hk : T.isHashTableKeyEmpty key = false) (hall : ∀ x ∈ t.entries, T.eq x.1 key = false)
    (hl : t.bucketCountMask * 3 ≤ t.usedNodeCount * 5) (depth : ℕ) (value : V) :
    (2 * t.bucketCount ≤ maxBucketCount T →
      Added T t key value (2 * t.bucketCount) (emplaceRec T (depth + 2) t key value)) ∧
    (maxBucketCount T < 2 * t.bucketCount →
      emplaceRec T (depth + 2) t key value = .error .tooLarge) := by
  rw [emplaceRec_succ hk ha.mask_ne]
  obtain ⟨b, hb, hp, ⟨y, hy, he⟩ | ⟨hn, -, -⟩⟩ := ha.search key
  · exact absurd ((hall y (mem_contents.2 ⟨b, hb, hy⟩)).symm.trans he) Bool.false_ne_true
  simp only [hp, hn, Option.isSome_none, Bool.false_eq_true, if_false, ge_iff_le, hl, if_true]
  constructor
  · intro hmax
    obtain ⟨k, hk3, -, hcount⟩ := ha.count
    have hdouble : 2 * t.bucketCount = 2 ^ (k + 1) := by rw [hcount, Nat.pow_succ, Nat.mul_comm]
    have hlt := ha.used_lt
    have h8 := ha.eight_le
    rw [hdouble] at hmax ⊢
    obtain ⟨t', hr, ha', he', hu, hc, -⟩ := (resize_spec (T := T) (t := t) (Or.inr ha)
      (k := k + 1) (by omega) (by omega)).resolve_left (resize_ne_tooLarge hmax)
    have hload : t'.usedNodeCount * 5 < t'.bucketCountMask * 3 := by
      rw [hu, ha'.mask, hc, ← hdouble]
      omega
    simp only [hr, ok_bind, hload, not_true_eq_false, if_false]
    have := ha'.emplaceRec_room hk (he'.symm ▸ hall) hload depth value
    rwa [Added, he', hc] at this
  · intro hmax
    rw [resize_tooLarge hmax]
    rfl

/-- The first key. -/
theorem emplace_init {key : K} (hk : T.isHashTableKeyEmpty key = false) (value : V) :
    (8 ≤ maxBucketCount T →
      Added T {} key value 8 (emplace T ({} : Table K V) key value)) ∧
    (maxBucketCount T < 8 → emplace T ({} : Table K V) key value = .error .tooLarge) := by
  rw [Table.emplace, emplaceRec]
  simp only [hk, Bool.false_eq_true, if_false, if_true, ne_eq, not_true_eq_false, pure_bind]
  constructor
  · intro hmax
    obtain ⟨t', hr, ha', he', hu, hc, -⟩ := (resize_spec (T := T) (t := ({} : Table K V))
      (Or.inl rfl) (k := 3) le_rfl (by simp)).resolve_left (resize_ne_tooLarge hmax)
    have hempty : t'.entries = 0 := he'.trans contents_none
    have hload : t'.usedNodeCount * 5 < t'.bucketCountMask * 3 := by
      rw [hu, ha'.mask, hc]
      change 0 * 5 < (2 ^ 3 - 1) * 3
      decide
    have := ha'.emplaceRec_room hk (by simp [hempty]) hload 1 value
    rw [Added, he', hc, emplaceRec_succ hk ha'.mask_ne] at this
    change Table.resize T ({} : Table K V) 8 = .ok t' at hr
    rw [hr]
    exact this
  · intro hmax
    rw [resize_tooLarge hmax]
    rfl

theorem emplace_emptyKey {key : K} (hk : T.isHashTableKeyEmpty key = true) (t : Table K V)
    (value : V) : t.emplace T key value = .error .emptyKey := by
  rw [Table.emplace, emplaceRec, if_pos hk]
  rfl

/-! ## One key after the other -/

/-- The table of a set into which the keys have been put; the last time that its array was doubled
there was no room for the key that came next. -/
structure Filled (T : Traits K) (keys : List K) (t : Table K Unit) : Prop extends Inv T t where
  entries : t.entries = (keys.map (·, ()) : List (K × Unit))
  le_max : t.bucketCount ≤ maxBucketCount T
  tight : t.bucketCount ≤ 8 ∨ (t.bucketCount / 2 - 1) * 3 ≤ (keys.length - 1) * 5

variable {keys : List K} {t : Table K Unit}

theorem Filled.init : Filled T [] ({} : Table K Unit) where
  toInv := Models.init.toInv
  entries := contents_none
  le_max := Nat.zero_le _
  tight := Or.inl (by simp)

theorem Filled.card (h : Filled T keys t) : t.entries.card = keys.length := by
  rw [h.entries, Multiset.coe_card, List.length_map]

/-- What is in a table has found room. -/
theorem Inv.fits (h : Inv T t) (hmax : t.bucketCount ≤ maxBucketCount T) :
    Fits T t.entries.card := by
  rcases h.shape with rfl | ha
  · have h0 : ({} : Table K Unit).entries = 0 := contents_none
    exact Or.inl (by rw [h0, Multiset.card_zero])
  · obtain ⟨k, hk, -, hcount⟩ := ha.count
    have hload := ha.load
    have h8 := ha.eight_le
    rw [ha.used, ha.mask, hcount] at hload
    rw [hcount] at hmax h8
    exact Or.inr ⟨k, hk, hmax, by omega⟩

theorem Filled.fits (h : Filled T keys t) : Fits T keys.length := h.card ▸ h.toInv.fits h.le_max

theorem Filled.of_added (h : Filled T keys t) {key : K} {count : ℕ}
    {r : Except Fault ((ℕ × Bool) × Table K Unit)} (hr : Added T t key () count r)
    (hmax : count ≤ maxBucketCount T)
    (htight : count ≤ 8 ∨ (count / 2 - 1) * 3 ≤ keys.length * 5) :
    ∃ b t', r = .ok (b, t') ∧ Filled T (key :: keys) t' := by
  obtain ⟨b, t', rfl, ha', hb, hent, rfl⟩ := hr
  refine ⟨b, t', rfl, ⟨⟨Or.inr ha', Or.inl hb⟩, ?_, hmax, htight⟩⟩
  rw [hent, h.entries]
  rfl

/-- One more key. -/
theorem Filled.emplace (h : Filled T keys t) {key : K} (hk : T.isHashTableKeyEmpty key = false) :
    (Fits T (addKey T keys key).length →
      ∃ b t', t.emplace T key () = .ok (b, t') ∧ Filled T (addKey T keys key) t') ∧
    (¬Fits T (addKey T keys key).length → t.emplace T key () = .error .tooLarge) := by
  rw [addKey]
  split_ifs with hany
  · obtain ⟨a, ha, he⟩ := List.any_eq_true.1 hany
    have hmem : (a, ()) ∈ t.entries := by
      rw [h.entries]
      exact Multiset.mem_coe.2 (List.mem_map.2 ⟨a, ha, rfl⟩)
    refine ⟨fun _ ↦ ?_, fun hf ↦ (hf h.fits).elim⟩
    rcases h.shape with rfl | ha
    · simp [Table.entries] at hmem
    · obtain ⟨b, hr⟩ := ha.emplaceRec_found hk hmem he 1 ()
      exact ⟨_, t, hr, h⟩
  · have hall : ∀ x ∈ t.entries, T.eq x.1 key = false := by
      intro x hx
      rw [h.entries, Multiset.mem_coe, List.mem_map] at hx
      obtain ⟨a, ha, rfl⟩ := hx
      simpa using List.any_eq_false.1 (Bool.eq_false_iff.2 hany) a ha
    have hcard := h.card
    have hlen : (key :: keys).length = keys.length + 1 := rfl
    rcases h.shape with rfl | ha
    · obtain ⟨hok, herr⟩ := emplace_init (T := T) hk ()
      have h0 : keys.length = 0 := hcard.symm.trans (congrArg _ contents_none)
      have hfits : Fits T (key :: keys).length ↔ 8 ≤ maxBucketCount T := by
        rw [hlen, h0]
        constructor
        · rintro (h | ⟨k, hk, hmax, -⟩)
          · cases h
          · exact (Nat.pow_le_pow_right (n := 2) (by omega) hk).trans hmax
        · exact fun hmax ↦ Or.inr ⟨3, le_rfl, hmax, by decide⟩
      rw [hfits, not_le]
      exact ⟨fun hmax ↦ h.of_added (hok hmax) hmax (Or.inl le_rfl), herr⟩
    obtain ⟨k, hk3, -, hcount⟩ := ha.count
    have hmask := ha.mask
    have hused := ha.used
    have hmax := h.le_max
    by_cases hl : t.usedNodeCount * 5 < t.bucketCountMask * 3
    · refine ⟨fun _ ↦ ?_, fun hf ↦ (hf ?_).elim⟩
      · refine h.of_added (ha.emplaceRec_room hk hall hl 1 ()) hmax ?_
        rcases h.tight with ht | ht
        · exact Or.inl ht
        · exact Or.inr (by omega)
      · exact Or.inr ⟨k, hk3, hcount ▸ hmax, by rw [← hcount]; omega⟩
    · obtain ⟨hok, herr⟩ := ha.emplaceRec_full hk hall (not_lt.1 hl) 0 ()
      have hfits : Fits T (key :: keys).length ↔ 2 * t.bucketCount ≤ maxBucketCount T := by
        rw [hlen]
        constructor
        · rintro (h | ⟨j, -, hmax, hlt⟩)
          · cases h
          · have hkj : k < j := by
              by_contra hle
              have := Nat.pow_le_pow_right (n := 2) (by omega) (not_lt.1 hle)
              omega
            have := Nat.pow_le_pow_right (n := 2) (by omega) hkj
            rw [Nat.pow_succ] at this
            omega
        · intro hmax
          refine Or.inr ⟨k + 1, by omega, ?_, ?_⟩
          · rw [Nat.pow_succ, ← hcount]
            omega
          · have := ha.used_lt
            have := ha.eight_le
            rw [Nat.pow_succ, ← hcount]
            omega
      rw [hfits, not_le]
      refine ⟨fun hmax ↦ h.of_added (hok hmax) hmax (Or.inr ?_), herr⟩
      omega

/-- All keys. -/
theorem Filled.insertAll (h : Filled T keys t) (more : List K) :
    ((∀ key ∈ more, T.isHashTableKeyEmpty key = false) ∧
        Fits T (more.foldl (addKey T) keys).length →
      ∃ t', FlatHashTable.insertAll T more t = .ok t' ∧
        Filled T (more.foldl (addKey T) keys) t') ∧
    (¬((∀ key ∈ more, T.isHashTableKeyEmpty key = false) ∧
        Fits T (more.foldl (addKey T) keys).length) →
      ∃ f, FlatHashTable.insertAll T more t = .error f) := by
  induction more generalizing keys t with
  | nil =>
    refine ⟨fun _ ↦ ⟨t, rfl, h⟩, fun hf ↦ (hf ⟨?_, h.fits⟩).elim⟩
    intro key hkey
    cases hkey
  | cons key more ih =>
    rw [FlatHashTable.insertAll, List.foldl_cons]
    cases hk : T.isHashTableKeyEmpty key with
    | true =>
      refine ⟨fun hf ↦ ?_, fun _ ↦ ⟨.emptyKey, ?_⟩⟩
      · exact absurd (hk.symm.trans (hf.1 key List.mem_cons_self)) (by decide)
      · rw [emplace_emptyKey hk]
        rfl
    | false =>
      obtain ⟨hok, herr⟩ := h.emplace hk
      by_cases hf : Fits T (addKey T keys key).length
      · obtain ⟨b, t', hr, h'⟩ := hok hf
        obtain ⟨hok', herr'⟩ := ih h'
        rw [hr, ok_bind]
        constructor
        · rintro ⟨hall, hfit⟩
          exact hok' ⟨fun key hkey ↦ hall key (List.mem_cons_of_mem _ hkey), hfit⟩
        · intro hnot
          refine herr' fun ⟨hall, hfit⟩ ↦ hnot ⟨?_, hfit⟩
          intro key hkey
          rcases List.mem_cons.1 hkey with rfl | hkey
          · exact hk
          · exact hall key hkey
      · refine ⟨fun hall ↦ ?_, fun _ ↦ ⟨.tooLarge, ?_⟩⟩
        · exact (hf (hall.2.mono (length_le_foldl_addKey _ _))).elim
        · rw [herr hf]
          rfl

/-- The keys of a set make up a set again. -/
theorem Models.insertAll {m : K → Option Unit} (h : Models T t m)
    (hmax : t.bucketCount ≤ maxBucketCount T) {nodes : List (K × Unit)}
    (hnodes : (nodes : Multiset (K × Unit)) = t.entries) :
    (∀ key ∈ nodes.map Prod.fst, T.isHashTableKeyEmpty key = false) ∧
      Fits T (distinct T (nodes.map Prod.fst)).length ∧
      ∃ t', FlatHashTable.insertAll T (nodes.map Prod.fst) {} = .ok t' ∧
        t'.entries = t.entries := by
  have hkeys : ∀ key ∈ nodes.map Prod.fst, T.isHashTableKeyEmpty key = false := by
    intro key hkey
    obtain ⟨x, hx, rfl⟩ := List.mem_map.1 hkey
    have hmem : x ∈ t.entries := hnodes ▸ Multiset.mem_coe.2 hx
    rcases h.shape with rfl | ha
    · simp [Table.entries] at hmem
    · exact ha.keys x hmem
  have hpair : (nodes.map Prod.fst ++ []).Pairwise fun a b ↦ T.eq a b = false := by
    have hnodup := h.represents.nodup
    rw [← hnodes, Multiset.map_coe, Multiset.coe_nodup, List.Nodup, List.pairwise_map] at hnodup
    rw [List.append_nil, List.pairwise_map]
    refine hnodup.imp fun {x y} hne ↦ ?_
    rw [← Bool.not_eq_true]
    exact fun he ↦ hne ((T.classOf_eq_iff).2 he)
  have hdistinct : (nodes.map Prod.fst).foldl (addKey T) [] = (nodes.map Prod.fst).reverse ++ [] :=
    foldl_addKey_of_pairwise hpair
  have hfits : Fits T (distinct T (nodes.map Prod.fst)).length := by
    rw [distinct, hdistinct, List.append_nil, List.length_reverse, List.length_map,
      ← Multiset.coe_card, hnodes]
    exact h.toInv.fits hmax
  obtain ⟨t', hr, ht'⟩ := (Filled.init.insertAll (nodes.map Prod.fst)).1 ⟨hkeys, hfits⟩
  refine ⟨hkeys, hfits, t', hr, ?_⟩
  rw [ht'.entries, hdistinct, List.append_nil, ← hnodes, Multiset.coe_eq_coe]
  refine ((List.reverse_perm _).map _).trans ?_
  rw [List.map_map]
  exact List.Perm.of_eq (List.map_id nodes)

end Table

end PxcCore.FlatHashTable
