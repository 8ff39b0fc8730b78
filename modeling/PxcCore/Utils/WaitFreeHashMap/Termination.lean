import PxcCore.Utils.WaitFreeHashMap.Run

/-!
# When splitting ends

A map is split when as many keys have come its way as its threshold says.  Each level has a
multiplier of its own for the hashes, and keys that have gone the same way on all levels so far are
told apart on the next one, unless their hashes do not allow it.  Keys with one hash go the same way
for ever.
-/

namespace PxcCore.WaitFreeHashMap

open Lib KeyEq FlatHashTable

/-! ## Levels -/

/-- `hash_mult_` of the maps on a level. -/
def levelHashMult : ℕ → UInt32
  | 0 => 1
  | level + 1 => nextHashMult (levelHashMult level)

section

variable {K : Type} (T : Traits K)

/-- The index of the nested map to which a key goes from a level. -/
def way (level : ℕ) (key : K) : Fin maxStorageCount := getWaitFreeIndex T (levelHashMult level) key

/-- The keys that go the same way as a key up to a level. -/
def companions (keys : List K) (level : ℕ) (key : K) : List K :=
  keys.filter fun k ↦ ∀ j < level, way T j k = way T j key

/-- `max_storage_size_` of the map to which a key has come on a level. -/
def threshold : ℕ → K → ℕ
  | 0, _ => defaultStorageSize.toNat
  | level + 1, key =>
    (nestedFields (levelHashMult level) (way T level key) : Fields K Unit).maxStorageSize.toNat

/-- On some level, at most `bound`, the companions of every key are too few to split their map. -/
def SeparatedBy (keys : List K) (bound : ℕ) : Prop :=
  ∀ key ∈ keys, ∃ level ≤ bound, (companions T keys level key).length < threshold T level key

end

variable {K V : Type} {T : Traits K} {keys : List K}

theorem mem_companions {level : ℕ} {key k : K} :
    k ∈ companions T keys level key ↔ k ∈ keys ∧ ∀ j < level, way T j k = way T j key := by
  rw [companions, List.mem_filter, decide_eq_true_iff]

theorem companions_congr {level : ℕ} {key key' : K} (h : ∀ j < level, way T j key = way T j key') :
    companions T keys level key = companions T keys level key' := by
  apply List.filter_congr
  intro k _
  rw [decide_eq_decide]
  constructor
  · intro hk j hj
    exact (hk j hj).trans (h j hj)
  · intro hk j hj
    exact (hk j hj).trans (h j hj).symm

theorem threshold_congr {level : ℕ} {key key' : K} (h : ∀ j < level, way T j key = way T j key') :
    threshold T level key = threshold T level key' := by
  cases level with
  | zero => rfl
  | succ level => rw [threshold, threshold, h level (Nat.lt_succ_self level)]

/-- One level further. -/
theorem mem_companions_succ {level : ℕ} {key k a : K} (hk : k ∈ companions T keys level key)
    (ha : a ∈ companions T keys level key) (hway : way T level a = way T level k) :
    a ∈ companions T keys (level + 1) k := by
  rw [mem_companions] at hk ha ⊢
  refine ⟨ha.1, fun j hj ↦ ?_⟩
  obtain hlt | rfl := Nat.lt_succ_iff_lt_or_eq.1 hj
  · exact (ha.2 j hlt).trans (hk.2 j hlt).symm
  · exact hway

theorem way_congr (level : ℕ) {a b : K} (h : T.eq a b = true) : way T level a = way T level b :=
  getWaitFreeIndex_congr _ h

theorem threshold_le (level : ℕ) (key : K) : 4096 ≤ threshold T level key ∧
    threshold T level key ≤ 8191 := by
  cases level with
  | zero =>
    have hsize : threshold T 0 key = 4096 := rfl
    rw [hsize]
    decide
  | succ level =>
    rw [threshold, Map.maxStorageSize_nestedFields]
    omega

theorem SeparatedBy.mono {bound bound' : ℕ} (h : SeparatedBy T keys bound) (hle : bound ≤ bound') :
    SeparatedBy T keys bound' := by
  intro key hkey
  obtain ⟨level, hlevel, hlt⟩ := h key hkey
  exact ⟨level, hlevel.trans hle, hlt⟩

/-- A bound for each key is a bound for all. -/
theorem exists_separatedBy (h : ∀ key ∈ keys, ∃ level,
    (companions T keys level key).length < threshold T level key) :
    ∃ bound, SeparatedBy T keys bound := by
  have hall (l : List K) : (∀ key ∈ l, ∃ level,
      (companions T keys level key).length < threshold T level key) →
      ∃ bound, ∀ key ∈ l, ∃ level ≤ bound,
        (companions T keys level key).length < threshold T level key := by
    induction l with
    | nil =>
      intro _
      exact ⟨0, fun key hkey ↦ absurd hkey List.not_mem_nil⟩
    | cons a l ih =>
      intro hl
      obtain ⟨level, hlevel⟩ := hl a List.mem_cons_self
      obtain ⟨bound, hbound⟩ := ih fun key hkey ↦ hl key (List.mem_cons_of_mem _ hkey)
      refine ⟨max level bound, fun key hkey ↦ ?_⟩
      obtain rfl | hkey := List.mem_cons.1 hkey
      · exact ⟨level, le_max_left _ _, hlevel⟩
      · obtain ⟨j, hj, hlt⟩ := hbound key hkey
        exact ⟨j, hj.trans (le_max_right _ _), hlt⟩
  exact hall keys h

namespace Map

/-! ## What has been split -/

/-- A map on a level to which a key comes, when no other keys than `keys` have been set: it is split
only if enough of them come there. -/
def Grown (T : Traits K) (keys : List K) : ℕ → K → Map K V → Prop
  | level, key, .flat f =>
    f.hashMult = levelHashMult level ∧ f.maxStorageSize.toNat = threshold T level key ∧
      ∀ x ∈ f.defaultMap.entries, ∃ a ∈ companions T keys level key, T.eq a x.1 = true
  | level, key, .split f maps =>
    f.hashMult = levelHashMult level ∧
      threshold T level key ≤ (companions T keys level key).length ∧
      ∀ k ∈ companions T keys level key, Grown T keys (level + 1) k (maps (way T level k))

variable {s : Map K V} {m : K → Option V} {f : Fields K V} {level : ℕ} {key : K}

theorem Grown.congr {key' : K} (h : Grown T keys level key s)
    (hway : ∀ j < level, way T j key = way T j key') : Grown T keys level key' s := by
  cases s with
  | flat f =>
    rw [Grown, ← threshold_congr hway, ← companions_congr hway]
    exact h
  | split f maps =>
    rw [Grown, ← threshold_congr hway, ← companions_congr hway]
    exact h

/-- When all companions of a key have been set and there are enough of them on each level, the map
is split for ever. -/
theorem Grown.not_many (h : Grown T keys level key s) (hs : Refines T s m) (hkey : key ∈ keys)
    (hd : keys.Pairwise fun a b ↦ T.eq a b = false)
    (hall : ∀ a ∈ companions T keys level key, (m a).isSome)
    (hmany : ∀ level, threshold T level key ≤ (companions T keys level key).length) : False := by
  induction s generalizing level m with
  | flat f =>
    have hle := hs.1.represents.le_ncard_live (hd.sublist List.filter_sublist) hall
    have hlt := hs.2
    rw [h.2.1, hs.1.size] at hlt
    exact absurd (hle.trans_lt hlt) (not_lt.2 (hmany level))
  | split f maps ih =>
    obtain ⟨hmult, -, hnested⟩ := h
    have hmem : key ∈ companions T keys level key := mem_companions.2 ⟨hkey, fun _ _ ↦ rfl⟩
    have hm := hs.2 (way T level key)
    rw [hmult] at hm
    refine ih _ (hnested key hmem) hm fun a ha ↦ ?_
    rw [mem_companions] at ha
    have hway : way T level a = way T level key := ha.2 level (Nat.lt_succ_self level)
    have hpart : part (getWaitFreeIndex T (levelHashMult level)) m (way T level key) a = m a :=
      if_pos hway
    rw [hpart]
    exact hall a (mem_companions.2 ⟨ha.1, fun j hj ↦ ha.2 j (Nat.lt_succ_of_lt hj)⟩)

/-! ## Setting a key -/

/-- A call stops only if the keys are not separated so early. -/
def TooDeep (T : Traits K) (keys : List K) (bound : ℕ) (fault : Fault) : Prop :=
  fault = .depth ∧ ¬SeparatedBy T keys bound

/-- The call on a map on a level keeps what is known of it. -/
def SetsGrown (T : Traits K) (keys : List K) (depth level : ℕ) (key : K) (m : K → Option V)
    (k : K) (value : V) (r : Except Fault (Bool × Map K V)) : Prop :=
  Ends (TooDeep T keys (level + depth))
    (fun _ s ↦ Refines T s (T.insert m k value) ∧ Grown T keys level key s) r

/-- The entries of a table with one key more. -/
theorem Grown.insert (h : Grown T keys level key (.flat f)) (hf : Table.Models T f.defaultMap m)
    {t : Table K V} {k a : K} {value : V} (ht : Table.Models T t (T.insert m k value))
    (ha : a ∈ companions T keys level key) (hak : T.eq a k = true) :
    ∀ x ∈ t.entries, ∃ a ∈ companions T keys level key, T.eq a x.1 = true := by
  intro x hx
  have hsome := ht.represents.of_mem hx (T.refl x.1)
  rw [KeyEq.insert] at hsome
  split_ifs at hsome with he
  · exact ⟨a, ha, T.trans hak he⟩
  · obtain ⟨y, hy, hyx, -⟩ := (hf.represents.lookup x.1 x.2).1 hsome
    obtain ⟨b, hb, hby⟩ := h.2.2 y hy
    exact ⟨b, hb, T.trans hby hyx⟩

/-- On all levels up to here, enough keys go the way of a key. -/
def Reached (T : Traits K) (keys : List K) (level : ℕ) (key : K) : Prop :=
  ∀ j < level, threshold T j key ≤ (companions T keys j key).length

theorem Reached.succ (h : Reached T keys level key) {a : K} (ha : a ∈ companions T keys level key)
    (hmany : threshold T level key ≤ (companions T keys level key).length) :
    Reached T keys (level + 1) a := by
  have hsame : ∀ j < level, way T j key = way T j a :=
    fun j hj ↦ ((mem_companions.1 ha).2 j hj).symm
  intro j hj
  obtain hlt | rfl := Nat.lt_succ_iff_lt_or_eq.1 hj
  · have hj' : ∀ i < j, way T i key = way T i a := fun i hi ↦ hsame i (hi.trans hlt)
    rw [← threshold_congr hj', ← companions_congr hj']
    exact h j hlt
  · rw [← threshold_congr hsame, ← companions_congr hsame]
    exact hmany

/-- Then it has not come to the level that separates the key. -/
theorem Reached.not_separatedBy {a : K} (h : Reached T keys (level + 1) a) (ha : a ∈ keys) :
    ¬SeparatedBy T keys level := by
  intro hsep
  obtain ⟨j, hj, hlt⟩ := hsep a ha
  exact absurd (h j (Nat.lt_succ_of_le hj)) (not_le.2 hlt)

/-- A nested map as it is made. -/
theorem Grown.nested {k : K} {i : Fin maxStorageCount} (hi : way T level k = i) :
    Grown T keys (level + 1) k (.flat (nestedFields (levelHashMult level) i) : Map K V) := by
  rw [Grown]
  refine ⟨rfl, ?_, ?_⟩
  · rw [threshold, hi, maxStorageSize_nestedFields, maxStorageSize_nestedFields]
  · intro x hx
    have hnone : ({} : Table K V).entries = 0 := Buckets.contents_none
    have hx' : x ∈ ({} : Table K V).entries := hx
    rw [hnone] at hx'
    cases hx'

variable [Inhabited V]

/-- `set` on a map that is split. -/
theorem set_split (f : Fields K V) (maps : Fin maxStorageCount → Map K V) (depth : ℕ)
    (random : Random) (k : K) (value : V) :
    (Map.split f maps).set T depth random k value = do
      let (b, nested) ← (maps (getWaitFreeIndex T f.hashMult k)).set T depth random k value
      return (b, .split f (Function.update maps (getWaitFreeIndex T f.hashMult k) nested)) := rfl

/-- `set` on every map on a level, from `set` on those that are not split. -/
theorem Grown.set_of_flat {depth : ℕ} {random : Random} {k : K} {value : V}
    (hflat : ∀ {f m level key}, Refines T (.flat f) m → Grown T keys level key (.flat f) →
      Reached T keys level key → (∃ a ∈ companions T keys level key, T.eq a k = true) →
      SetsGrown T keys depth level key m k value (setFlat T depth random k value f))
    (hempty : T.isHashTableKeyEmpty k = false) (h : Grown T keys level key s) (hs : Refines T s m)
    (hup : Reached T keys level key) (hk : ∃ a ∈ companions T keys level key, T.eq a k = true) :
    SetsGrown T keys depth level key m k value (s.set T depth random k value) := by
  induction s generalizing level key m with
  | flat f => exact hflat hs h hup hk
  | split f maps ih =>
    obtain ⟨hmult, hmany, hnested⟩ := h
    obtain ⟨a, ha, hak⟩ := hk
    have hindex : getWaitFreeIndex T f.hashMult k = way T level a := by
      rw [hmult]
      exact (way_congr level hak).symm
    have hdeeper := ih (way T level a) (hnested a ha) (hs.2 _) (hup.succ ha hmany)
      ⟨a, mem_companions_succ ha ha rfl, hak⟩
    have hwhole := hs.set hempty depth random value
    rw [set_split, hindex] at hwhole
    rw [set_split, hindex]
    obtain ⟨fault, he, rfl, hnot⟩ | ⟨b, nested, he, -, hgrown⟩ := hdeeper
    · refine .error (by rw [he]; rfl) ⟨rfl, fun hsep ↦ hnot (hsep.mono ?_)⟩
      omega
    · rw [he, ok_bind] at hwhole ⊢
      obtain ⟨fault, he', -⟩ | ⟨b', s', he', -, hrefines⟩ := hwhole
      · cases he'
      have hs' : Map.split f (Function.update maps (way T level a) nested) = s' :=
        (Prod.mk.inj (Except.ok.inj he')).2
      rw [← hs'] at hrefines
      have hgrown' : Grown T keys level key
          (Map.split f (Function.update maps (way T level a) nested)) := by
        rw [Grown]
        refine ⟨hmult, hmany, fun k' hk' ↦ ?_⟩
        rw [Function.update_apply]
        split_ifs with hway
        · exact hgrown.congr (mem_companions.1 (mem_companions_succ hk' ha hway.symm)).2
        · exact hnested k' hk'
      exact Or.inr ⟨b, _, rfl, hrefines, hgrown'⟩

/-- `set` on a map that is not split, from what happens when it comes to its threshold. -/
theorem Grown.setFlat_of_full (hmax : 2 ^ 14 ≤ maxBucketCount T)
    (h : Grown T keys level key (.flat f)) (hs : Refines T (.flat f) m) {k a : K}
    (hempty : T.isHashTableKeyEmpty k = false) (ha : a ∈ companions T keys level key)
    (hak : T.eq a k = true) {depth : ℕ} {random : Random} {value : V}
    (hfull : ∀ t, Table.Models T t (T.insert m k value) →
      threshold T level key ≤ (companions T keys level key).length →
      (∀ x ∈ t.entries, ∃ a ∈ companions T keys level key, T.eq a x.1 = true) →
      SetsGrown T keys depth level key m k value
        (match depth with
        | 0 => .error .depth
        | depth + 1 => do
          let s ← splitStorage T (set T depth) random { f with defaultMap := t }
          return ((m k).isNone, s))) :
    SetsGrown T keys depth level key m k value (setFlat T depth random k value f) := by
  have hgrown := h
  rw [Grown] at h
  obtain ⟨hmult, hthreshold, -⟩ := h
  have hbounds := threshold_le (T := T) level key
  have hlt := hs.2
  obtain ⟨he, -⟩ | ⟨t, ht, ⟨hne, he⟩ | ⟨hsize, he⟩⟩ := setFlat_cases hs.1 hempty depth random value
  · exact absurd he (hs.1.emplace_ok hempty default (by omega) (by omega) hmax)
  · have hentries := hgrown.insert hs.1 ht ha hak
    refine .ok he ⟨hs.size_lt ht hne, ?_⟩
    rw [Grown]
    exact ⟨hmult, hthreshold, hentries⟩
  · have hentries := hgrown.insert hs.1 ht ha hak
    rw [he]
    refine hfull t ht ?_ hentries
    rw [← hthreshold, ← hsize, ht.size]
    exact ht.represents.ncard_live_le hentries

/-- `set` on a map that is not split. -/
theorem Grown.setFlat (hmax : 2 ^ 14 ≤ maxBucketCount T) (h : Grown T keys level key (.flat f))
    (hs : Refines T (.flat f) m) (hup : Reached T keys level key) {k a : K}
    (hempty : T.isHashTableKeyEmpty k = false) (ha : a ∈ companions T keys level key)
    (hak : T.eq a k = true) (depth : ℕ) (random : Random) (value : V) :
    SetsGrown T keys depth level key m k value (setFlat T depth random k value f) := by
  induction depth generalizing f m level key k a random value with
  | zero =>
    refine h.setFlat_of_full hmax hs hempty ha hak fun t ht hmany hentries ↦ ?_
    exact .error rfl ⟨rfl, (hup.succ ha hmany).not_separatedBy (mem_companions.1 ha).1⟩
  | succ depth ih =>
    refine h.setFlat_of_full hmax hs hempty ha hak fun t ht hmany hentries ↦ ?_
    have hmult : f.hashMult = levelHashMult level := by
      rw [Grown] at h
      exact h.1
    have hlevels : level + 1 + depth = level + (depth + 1) := by omega
    -- what is known of a nested map: it has grown for all the keys that come to it
    have hset : ∀ node ∈ t.entries, ∀ random s m',
        (∀ k ∈ companions T keys level key, way T level k = getWaitFreeIndex T f.hashMult node.1 →
          Grown T keys (level + 1) k s) → Refines T s m' →
        Ends (TooDeep T keys (level + (depth + 1))) (fun _ s' ↦
          (∀ k ∈ companions T keys level key,
            way T level k = getWaitFreeIndex T f.hashMult node.1 →
            Grown T keys (level + 1) k s') ∧ Refines T s' (T.insert m' node.1 node.2))
          (Map.set T depth random node.1 node.2 s) := by
      intro node hnode random s m' hI hs'
      obtain ⟨b, hb, hbn⟩ := hentries node hnode
      have hindex : way T level b = getWaitFreeIndex T f.hashMult node.1 := by
        rw [hmult]
        exact way_congr level hbn
      have hnested : SetsGrown T keys depth (level + 1) b m' node.1 node.2
          (Map.set T depth random node.1 node.2 s) := by
        refine Grown.set_of_flat ?_ (ht.keys hnode) (hI b hb hindex) hs' (hup.succ hb hmany)
          ⟨b, mem_companions_succ hb hb rfl, hbn⟩
        rintro f' m'' level' key' hf' hg' hup' ⟨c, hc, hcn⟩
        exact ih hg' hf' hup' (ht.keys hnode) hc hcn random node.2
      rw [SetsGrown, hlevels] at hnested
      refine hnested.imp ?_
      rintro _ s' ⟨hm, hg⟩
      refine ⟨fun k' hk' hway ↦ ?_, hm⟩
      exact hg.congr (mem_companions.1 (mem_companions_succ hk' hb (hindex.trans hway.symm))).2
    obtain ⟨fault, he, hfault⟩ | ⟨maps, he, hmaps⟩ := @splitStorage_spec _ _ _ _
      { f with defaultMap := t } _ ht _ (fun i s ↦ ∀ k ∈ companions T keys level key,
        way T level k = i → Grown T keys (level + 1) k s)
      (fun i k _ hi ↦ hmult ▸ .nested hi) hset random
    · exact .error (by dsimp only; rw [he]; rfl) hfault
    · have hrefines : Refines T (.split { f with defaultMap := {} } maps) (T.insert m k value) :=
        ⟨rfl, fun i ↦ (hmaps i).2⟩
      have hsplit : Grown T keys level key (.split { f with defaultMap := {} } maps) := by
        rw [Grown]
        exact ⟨hmult, hmany, fun k' hk' ↦ (hmaps _).1 k' hk' rfl⟩
      exact Or.inr ⟨(m k).isNone, _, by dsimp only; rw [he]; rfl, hrefines, hsplit⟩

/-- `set`, on every map to which the key comes. -/
theorem Grown.set (hmax : 2 ^ 14 ≤ maxBucketCount T) (h : Grown T keys level key s)
    (hs : Refines T s m) (hup : Reached T keys level key) {k : K}
    (hempty : T.isHashTableKeyEmpty k = false)
    (hk : ∃ a ∈ companions T keys level key, T.eq a k = true) (depth : ℕ) (random : Random)
    (value : V) : SetsGrown T keys depth level key m k value (s.set T depth random k value) := by
  refine h.set_of_flat ?_ hempty hs hup hk
  rintro f' m' level' key' hf' hg' hup' ⟨a, ha, hak⟩
  exact hg'.setFlat hmax hf' hup' hempty ha hak depth random value

end Map

/-! ## Setting many keys -/

/-- A new map has grown for all keys. -/
theorem grown_init (keys : List K) (key : K) : Map.Grown T keys 0 key (.flat {} : Map K V) := by
  rw [Map.Grown]
  refine ⟨rfl, rfl, fun x hx ↦ ?_⟩
  have hnone : ({} : Table K V).entries = 0 := Buckets.contents_none
  have hx' : x ∈ ({} : Table K V).entries := hx
  rw [hnone] at hx'
  cases hx'

theorem refines_init : Map.Refines T (.flat {} : Map K V) (fun _ ↦ none) :=
  .init (by decide : 0 < defaultStorageSize.toNat) rfl

variable [Inhabited V]

/-- `set` of one key after the other. -/
def setAll (T : Traits K) (depth : ℕ) (nodes : List (T.Key × V × Random)) (s : Map K V) :
    Except Fault (Map K V) :=
  nodes.foldlM (fun s node ↦ do
    let (_, s) ← s.set T depth node.2.2 node.1.1 node.2.1
    return s) s

/-- The keys that are set. -/
def keysOf (nodes : List (T.Key × V × Random)) : List K := nodes.map fun node ↦ node.1.1

/-- Setting keys into a map that has grown for them. -/
theorem setAll_spec (hmax : 2 ^ 14 ≤ maxBucketCount T) {key : K} (depth : ℕ)
    (nodes : List (T.Key × V × Random)) (hsub : ∀ k ∈ keysOf nodes, k ∈ keys) {s : Map K V}
    {m : K → Option V} (hs : Map.Refines T s m) (h : Map.Grown T keys 0 key s) :
    (∃ fault, setAll T depth nodes s = .error fault ∧ ¬SeparatedBy T keys depth) ∨
      ∃ s' m', setAll T depth nodes s = .ok s' ∧ Map.Refines T s' m' ∧ Map.Grown T keys 0 key s' ∧
        (∀ k, (m k).isSome → (m' k).isSome) ∧ ∀ k ∈ keysOf nodes, (m' k).isSome := by
  induction nodes generalizing s m with
  | nil =>
    refine Or.inr ⟨s, m, rfl, hs, h, fun _ hk ↦ hk, fun k hk ↦ ?_⟩
    cases hk
  | cons node nodes ih =>
    have hmem : node.1.1 ∈ companions T keys 0 key :=
      mem_companions.2 ⟨hsub _ List.mem_cons_self, fun j hj ↦ absurd hj (Nat.not_lt_zero j)⟩
    have hup : Map.Reached T keys 0 key := fun j hj ↦ absurd hj (Nat.not_lt_zero j)
    rw [setAll, List.foldlM_cons]
    obtain ⟨fault, he, -, hnot⟩ | ⟨new, s₁, he, hs₁, h₁⟩ := h.set hmax hs hup node.1.2
      ⟨node.1.1, hmem, T.refl _⟩ depth node.2.2 node.2.1
    · rw [Nat.zero_add] at hnot
      exact Or.inl ⟨fault, by rw [he]; rfl, hnot⟩
    · rw [he]
      obtain ⟨fault, hr, hnot⟩ | ⟨s', m', hr, hs', h', hkeep, hset⟩ :=
        ih (fun k hk ↦ hsub k (List.mem_cons_of_mem _ hk)) hs₁ h₁
      · exact Or.inl ⟨fault, hr, hnot⟩
      · refine Or.inr ⟨s', m', hr, hs', h', fun k hk ↦ hkeep k ?_, fun k hk ↦ ?_⟩
        · rw [KeyEq.insert]
          split_ifs
          · rfl
          · exact hk
        · obtain rfl | hk := List.mem_cons.1 hk
          · exact hkeep _ (by rw [insert_self]; rfl)
          · exact hset k hk

/-- If setting different keys ends, they are separated. -/
theorem separated_of_setAll (hmax : 2 ^ 14 ≤ maxBucketCount T) {nodes : List (T.Key × V × Random)}
    (hd : (keysOf nodes).Pairwise fun a b ↦ T.eq a b = false) {depth : ℕ} {s : Map K V}
    (h : setAll T depth nodes (.flat {}) = .ok s) : ∀ key ∈ keysOf nodes, ∃ level,
      (companions T (keysOf nodes) level key).length < threshold T level key := by
  intro key hkey
  by_contra hmany
  push Not at hmany
  obtain ⟨fault, he, -⟩ | ⟨s', m', he, hs', hg, -, hall⟩ := setAll_spec hmax depth nodes
    (fun _ hk ↦ hk) refines_init (grown_init (keysOf nodes) key)
  · rw [h] at he
    cases he
  · refine hg.not_many hs' hkey hd (fun a ha ↦ hall a ?_) hmany
    exact (mem_companions.1 ha).1

/-- Setting different keys ends if and only if on some level the companions of each key are too few
to split their map. -/
theorem setAll_terminates_iff (hmax : 2 ^ 14 ≤ maxBucketCount T)
    (nodes : List (T.Key × V × Random))
    (hd : (keysOf nodes).Pairwise fun a b ↦ T.eq a b = false) :
    (∃ depth s, setAll T depth nodes (.flat {}) = .ok s) ↔ ∀ key ∈ keysOf nodes, ∃ level,
      (companions T (keysOf nodes) level key).length < threshold T level key := by
  constructor
  · rintro ⟨depth, s, h⟩
    exact separated_of_setAll hmax hd h
  · intro hsep
    obtain ⟨bound, hbound⟩ := exists_separatedBy hsep
    refine ⟨bound, ?_⟩
    cases nodes with
    | nil => exact ⟨_, rfl⟩
    | cons node nodes =>
      obtain ⟨fault, -, hnot⟩ | ⟨s', m', he, -⟩ := setAll_spec hmax bound (node :: nodes)
        (fun _ hk ↦ hk) refines_init (grown_init (keysOf (node :: nodes)) node.1.1)
      · exact absurd hbound hnot
      · exact ⟨s', he⟩

/-- A `WaitFreeHashMap<uint64, uint64>`. -/
def uint64Map : Traits UInt64 := { HashTraits.uint64 with sizeofNode := 16 }

theorem setAll_terminates_iff_single :
    ∃ depth s, setAll uint64Map depth [(⟨5, rfl⟩, (7 : UInt64), fun _ ↦ 0)] (.flat {}) = .ok s := by
  refine (setAll_terminates_iff (by decide) _ (List.pairwise_singleton _ _)).2 fun key _ ↦ ⟨0, ?_⟩
  have hle : (companions uint64Map [5] 0 key).length ≤ 1 := List.length_filter_le _ _
  exact hle.trans_lt (by decide : 1 < defaultStorageSize.toNat)

/-! ## Keys with one hash -/

/-- Keys with one hash are not separated. -/
theorem threshold_le_companions {keys : List K} {key : K}
    (hhash : ∀ a ∈ keys, T.hash a = T.hash key)
    (hlen : 8192 ≤ keys.length) (level : ℕ) :
    threshold T level key ≤ (companions T keys level key).length := by
  have hall : companions T keys level key = keys := by
    apply List.filter_eq_self.2
    intro a ha
    rw [decide_eq_true_iff]
    intro j _
    rw [way, way, getWaitFreeIndex, getWaitFreeIndex, hhash a ha]
  rw [hall]
  exact (threshold_le level key).2.trans ((Nat.le_succ _).trans hlen)

/-- A key whose upper half is `j + 1`, and whose lower half makes up for it. -/
def collidingKey (j : Fin 8192) : UInt64 := UInt64.ofNat ((j + 2) * 2 ^ 32 - (j + 1))

theorem toNat_collidingKey (j : Fin 8192) :
    (collidingKey j).toNat = (j + 2) * 4294967296 - (j + 1) := by
  have hj := j.2
  rw [collidingKey, UInt64.toNat_ofNat']
  simp only [Nat.reducePow]
  apply Nat.mod_eq_of_lt
  omega

theorem hash_uint64 (value : UInt64) :
    uint64Map.hash value = randomizeHash (value + (value >>> 32)).toUInt32 := rfl

theorem eq_uint64 (a b : UInt64) : uint64Map.eq a b = (a == b) := rfl

theorem isHashTableKeyEmpty_uint64 (value : UInt64) :
    uint64Map.isHashTableKeyEmpty value = (value == 0) := rfl

/-- The halves of a number that is below a multiple of `2^32` by its upper half. -/
theorem add_div_mod {c : ℕ} (hc : 0 < c) (hlt : c < 4294967296) :
    ((c + 1) * 4294967296 - c + ((c + 1) * 4294967296 - c) / 4294967296) % 4294967296 = 0 := by
  have hdiv : ((c + 1) * 4294967296 - c) / 4294967296 = c := by omega
  rw [hdiv]
  omega

theorem hash_collidingKey (j : Fin 8192) : uint64Map.hash (collidingKey j) = randomizeHash 0 := by
  have hj := j.2
  have hsum : (collidingKey j + (collidingKey j >>> 32)).toUInt32 = 0 := by
    apply UInt32.toNat_inj.1
    have h32 : (32 : UInt64).toNat % 64 = 32 := rfl
    have hzero : (0 : UInt32).toNat = 0 := rfl
    rw [UInt64.toNat_toUInt32, UInt64.toNat_add, UInt64.toNat_shiftRight, toNat_collidingKey, h32,
      hzero, Nat.shiftRight_eq_div_pow]
    simp only [Nat.reducePow]
    rw [Nat.mod_mod_of_dvd _ (by decide)]
    exact add_div_mod (Nat.succ_pos j) (by omega)
  rw [hash_uint64, hsum]

theorem collidingKey_ne (j : Fin 8192) :
    uint64Map.isHashTableKeyEmpty (collidingKey j) = false := by
  have hj := j.2
  rw [isHashTableKeyEmpty_uint64, beq_eq_false_iff_ne]
  intro h
  have hnat := congrArg UInt64.toNat h
  have hzero : (0 : UInt64).toNat = 0 := rfl
  rw [toNat_collidingKey, hzero] at hnat
  omega

/-- 8192 different keys, all with one hash. -/
def collidingNodes : List (uint64Map.Key × UInt64 × Random) :=
  (List.finRange 8192).map fun j ↦ (⟨collidingKey j, collidingKey_ne j⟩, 0, fun _ ↦ 0)

theorem keysOf_collidingNodes : keysOf collidingNodes = (List.finRange 8192).map collidingKey := by
  rw [keysOf, collidingNodes, List.map_map]
  rfl

theorem collidingNodes_pairwise :
    (keysOf collidingNodes).Pairwise fun a b ↦ uint64Map.eq a b = false := by
  rw [keysOf_collidingNodes, List.pairwise_map]
  refine (List.nodup_finRange 8192).imp fun {i j} hij ↦ ?_
  rw [eq_uint64, beq_eq_false_iff_ne]
  intro h
  have hi := toNat_collidingKey i
  rw [h, toNat_collidingKey j] at hi
  exact hij (Fin.ext (by omega))

/-- Setting them never ends. -/
theorem collidingNodes_diverge :
    (keysOf collidingNodes).Pairwise (fun a b ↦ uint64Map.eq a b = false) ∧
      ¬∃ depth s, setAll uint64Map depth collidingNodes (.flat {}) = .ok s := by
  refine ⟨collidingNodes_pairwise, ?_⟩
  rintro ⟨depth, s, h⟩
  have hmem : collidingKey 0 ∈ keysOf collidingNodes := by
    rw [keysOf_collidingNodes]
    exact List.mem_map_of_mem (List.mem_finRange 0)
  obtain ⟨level, hlt⟩ :=
    separated_of_setAll (by decide) collidingNodes_pairwise h (collidingKey 0) hmem
  refine absurd hlt (not_lt.2 (threshold_le_companions ?_ ?_ level))
  · intro a ha
    rw [keysOf_collidingNodes] at ha
    obtain ⟨j, -, rfl⟩ := List.mem_map.1 ha
    rw [hash_collidingKey, hash_collidingKey]
  · rw [keysOf_collidingNodes, List.length_map, List.length_finRange]

end PxcCore.WaitFreeHashMap
