import Mathlib

/-!
# Finite maps up to an equality test on keys

A hash table compares keys with a test of its own, so the map it implements is a map from the
classes of that test.  `Represents` relates a bag of entries to the map they stand for.
-/

namespace PxcCore.Lib

/-- An equality test on keys. -/
structure KeyEq (K : Type*) where
  eq : K → K → Bool
  refl : ∀ a, eq a a = true
  symm : ∀ {a b}, eq a b = true → eq b a = true
  trans : ∀ {a b c}, eq a b = true → eq b c = true → eq a c = true

namespace KeyEq

variable {K V : Type*} (E : KeyEq K)

theorem eq_comm (a b : K) : E.eq a b = E.eq b a := by
  rw [Bool.eq_iff_iff]
  exact ⟨E.symm, E.symm⟩

theorem eq_congr_right {a b : K} (h : E.eq a b = true) (c : K) : E.eq c a = E.eq c b := by
  rw [Bool.eq_iff_iff]
  exact ⟨fun hc ↦ E.trans hc h, fun hc ↦ E.trans hc (E.symm h)⟩

/-- The classes of keys that are the same for the test. -/
def setoid : Setoid K where
  r a b := E.eq a b = true
  iseqv := ⟨E.refl, E.symm, E.trans⟩

/-- The map `m` with `k` set to `v`. -/
def insert (m : K → Option V) (k : K) (v : V) : K → Option V :=
  fun k' ↦ if E.eq k k' then some v else m k'

/-- The map `m` without `k`. -/
def erase (m : K → Option V) (k : K) : K → Option V :=
  fun k' ↦ if E.eq k k' then none else m k'

/-- The map `m` with `k` set to `v` unless it is there already. -/
def emplace (m : K → Option V) (k : K) (v : V) : K → Option V :=
  if (m k).isSome then m else E.insert m k v

theorem emplace_of_some {m : K → Option V} {k : K} {w : V} (h : m k = some w) (v : V) :
    E.emplace m k v = m := by simp [emplace, h]

theorem emplace_of_none {m : K → Option V} {k : K} (h : m k = none) (v : V) :
    E.emplace m k v = E.insert m k v := by simp [emplace, h]

theorem insert_emplace (m : K → Option V) (k : K) (v w : V) :
    E.insert (E.emplace m k v) k w = E.insert m k w := by
  unfold emplace
  split_ifs
  · rfl
  · funext a
    unfold insert
    split_ifs <;> rfl

/-- The classes of the keys that are in the map. -/
def live (m : K → Option V) : Set (Quotient E.setoid) :=
  {q | ∃ k, (m k).isSome ∧ q = Quotient.mk E.setoid k}

/-- The class of an entry's key. -/
def classOf (x : K × V) : Quotient E.setoid := Quotient.mk E.setoid x.1

theorem classOf_eq_iff {x y : K × V} : E.classOf x = E.classOf y ↔ E.eq x.1 y.1 = true :=
  Quotient.eq (r := E.setoid)

/-- The entries `s`, one for each key, make up the map `m`. -/
structure Represents (s : Multiset (K × V)) (m : K → Option V) : Prop where
  nodup : (s.map E.classOf).Nodup
  lookup : ∀ k v, m k = some v ↔ ∃ x ∈ s, E.eq x.1 k = true ∧ x.2 = v

@[simp] theorem insert_self (m : K → Option V) (k : K) (v : V) : E.insert m k v k = some v := by
  simp [insert, E.refl]

variable {E} {s : Multiset (K × V)} {m : K → Option V}

theorem Represents.empty : E.Represents (0 : Multiset (K × V)) (fun _ ↦ none) where
  nodup := by simp
  lookup := by simp

theorem Represents.eq_none_iff (h : E.Represents s m) (k : K) :
    m k = none ↔ ∀ x ∈ s, E.eq x.1 k = false := by
  constructor
  · intro hk x hx
    by_contra hne
    have := (h.lookup k x.2).2 ⟨x, hx, by simpa using hne, rfl⟩
    simp [hk] at this
  · intro hx
    cases hk : m k with
    | none => rfl
    | some v =>
      obtain ⟨x, hm, he, -⟩ := (h.lookup k v).1 hk
      simp [hx x hm] at he

theorem Represents.of_mem (h : E.Represents s m) {x : K × V} (hx : x ∈ s) {k : K}
    (hk : E.eq x.1 k = true) : m k = some x.2 := (h.lookup k x.2).2 ⟨x, hx, hk, rfl⟩

/-- Adding an entry whose key is not there yet. -/
theorem Represents.insert (h : E.Represents s m) {k : K} (hk : m k = none) (v : V) :
    E.Represents ((k, v) ::ₘ s) (E.insert m k v) where
  nodup := by
    rw [Multiset.map_cons, Multiset.nodup_cons, Multiset.mem_map]
    refine ⟨?_, h.nodup⟩
    rintro ⟨x, hx, he⟩
    rw [E.classOf_eq_iff] at he
    simp [(h.eq_none_iff k).1 hk x hx] at he
  lookup k' v' := by
    unfold KeyEq.insert
    by_cases he : E.eq k k' = true
    · have hn : ∀ x ∈ s, ¬E.eq x.1 k' = true := by
        intro x hx hxk
        have := E.trans hxk (E.symm he)
        simp [(h.eq_none_iff k).1 hk x hx] at this
      rw [if_pos he]
      simp only [Multiset.mem_cons, Option.some.injEq]
      constructor
      · rintro rfl
        exact ⟨_, Or.inl rfl, he, rfl⟩
      · rintro ⟨x, rfl | hx, hxk, rfl⟩
        · rfl
        · exact absurd hxk (hn x hx)
    · rw [if_neg he, h.lookup]
      simp [he]

/-- Taking an entry out. -/
theorem Represents.erase {x : K × V} (h : E.Represents (x ::ₘ s) m) {k : K}
    (hk : E.eq x.1 k = true) : E.Represents s (E.erase m k) where
  nodup := by
    have hn := h.nodup
    rw [Multiset.map_cons, Multiset.nodup_cons] at hn
    exact hn.2
  lookup k' v' := by
    have hn := h.nodup
    rw [Multiset.map_cons, Multiset.nodup_cons, Multiset.mem_map] at hn
    unfold KeyEq.erase
    by_cases he : E.eq k k' = true
    · rw [if_pos he]
      simp only [reduceCtorEq, false_iff]
      rintro ⟨y, hy, hyk, -⟩
      exact hn.1 ⟨y, hy, E.classOf_eq_iff.2 (E.trans hyk (E.symm (E.trans hk he)))⟩
    · rw [if_neg he, h.lookup]
      constructor
      · rintro ⟨y, hy, hyk, rfl⟩
        rcases Multiset.mem_cons.1 hy with rfl | hy
        · exact absurd (E.trans (E.symm hk) hyk) he
        · exact ⟨y, hy, hyk, rfl⟩
      · rintro ⟨y, hy, hyk, rfl⟩
        exact ⟨y, Multiset.mem_cons_of_mem hy, hyk, rfl⟩

/-- A key that is not there can be erased as well. -/
theorem Represents.erase_none (h : E.Represents s m) {k : K} (hk : m k = none) :
    E.Represents s (E.erase m k) where
  nodup := h.nodup
  lookup k' v' := by
    unfold KeyEq.erase
    by_cases he : E.eq k k' = true
    · rw [if_pos he]
      simp only [reduceCtorEq, false_iff]
      rintro ⟨y, hy, hyk, -⟩
      have := E.trans hyk (E.symm he)
      simp [(h.eq_none_iff k).1 hk y hy] at this
    · rw [if_neg he, h.lookup]

/-- Some of the entries make up a map as well. -/
theorem Represents.of_le {s' : Multiset (K × V)} (h : E.Represents s m) (hle : s' ≤ s) :
    ∃ m', E.Represents s' m' := by
  classical
  refine ⟨fun k ↦ if ∃ x ∈ s', E.eq x.1 k = true then m k else none, ?_, fun k v ↦ ?_⟩
  · exact Multiset.nodup_of_le (Multiset.map_le_map hle) h.nodup
  · constructor
    · intro hk
      split_ifs at hk with hx
      obtain ⟨x, hx, he⟩ := hx
      rw [h.of_mem (Multiset.mem_of_le hle hx) he, Option.some_inj] at hk
      exact ⟨x, hx, he, hk⟩
    · rintro ⟨x, hx, he, rfl⟩
      rw [if_pos ⟨x, hx, he⟩]
      exact h.of_mem (Multiset.mem_of_le hle hx) he

/-- A bag of entries makes up one map only. -/
theorem Represents.unique {m' : K → Option V} (h : E.Represents s m) (h' : E.Represents s m') :
    m = m' := by
  funext k
  apply Option.ext
  intro v
  exact (h.lookup k v).trans (h'.lookup k v).symm

/-- Changing the value of an entry. -/
theorem Represents.set {x : K × V} (h : E.Represents (x ::ₘ s) m) {k : K}
    (hk : E.eq x.1 k = true) (v : V) : E.Represents ((x.1, v) ::ₘ s) (E.insert m k v) := by
  have hnone : E.erase m x.1 x.1 = none := if_pos (E.refl x.1)
  have hset := (h.erase (E.refl x.1)).insert hnone v
  have heq : E.insert (E.erase m x.1) x.1 v = E.insert m k v := by
    funext a
    rw [KeyEq.insert, KeyEq.insert, KeyEq.erase, E.eq_comm x.1 a, E.eq_comm k a,
      E.eq_congr_right hk a]
    split_ifs <;> rfl
  rwa [heq] at hset

/-- The keys of a map are those of its entries. -/
theorem Represents.live_eq [DecidableEq (Quotient E.setoid)] (h : E.Represents s m) :
    E.live m = ((s.map E.classOf).toFinset : Set (Quotient E.setoid)) := by
  ext q
  simp only [live, Set.mem_ofPred_eq, Finset.mem_coe, Multiset.mem_toFinset, Multiset.mem_map]
  constructor
  · rintro ⟨k, hk, rfl⟩
    obtain ⟨v, hv⟩ := Option.isSome_iff_exists.1 hk
    obtain ⟨x, hx, he, -⟩ := (h.lookup k v).1 hv
    exact ⟨x, hx, Quotient.sound (s := E.setoid) he⟩
  · rintro ⟨x, hx, rfl⟩
    exact ⟨x.1, by simp [h.of_mem hx (E.refl x.1)], rfl⟩

/-- The number of entries is the number of keys in the map. -/
theorem Represents.ncard_live (h : E.Represents s m) : (E.live m).ncard = s.card := by
  classical
  rw [h.live_eq, Set.ncard_coe_finset, Multiset.toFinset_card_of_nodup h.nodup, Multiset.card_map]

theorem Represents.finite_live (h : E.Represents s m) : (E.live m).Finite := by
  classical
  rw [h.live_eq]
  exact Finset.finite_toSet _

/-- A key that is set is one key more at most. -/
theorem Represents.ncard_live_insert_le (h : E.Represents s m) (k : K) (v : V) :
    (E.live (E.insert m k v)).ncard ≤ (E.live m).ncard + 1 := by
  have hsub : E.live (E.insert m k v) ⊆ Insert.insert (Quotient.mk E.setoid k) (E.live m) := by
    rintro q ⟨a, ha, rfl⟩
    rw [KeyEq.insert] at ha
    split_ifs at ha with he
    · exact Set.mem_insert_iff.2 (Or.inl (Quotient.sound (s := E.setoid) (E.symm he)))
    · exact Set.mem_insert_of_mem _ ⟨a, ha, rfl⟩
  exact (Set.ncard_le_ncard hsub (h.finite_live.insert _)).trans (Set.ncard_insert_le _ _)

theorem Represents.ncard_live_erase_le (h : E.Represents s m) (k : K) :
    (E.live (E.erase m k)).ncard ≤ (E.live m).ncard := by
  refine Set.ncard_le_ncard ?_ h.finite_live
  rintro q ⟨a, ha, rfl⟩
  rw [KeyEq.erase] at ha
  split_ifs at ha
  · cases ha
  · exact ⟨a, ha, rfl⟩

/-- There are not more keys than in a list with all of them. -/
theorem Represents.ncard_live_le (h : E.Represents s m) {l : List K}
    (hl : ∀ x ∈ s, ∃ a ∈ l, E.eq a x.1 = true) : (E.live m).ncard ≤ l.length := by
  classical
  have hsub : E.live m ⊆ ((l.map (Quotient.mk E.setoid)).toFinset : Set (Quotient E.setoid)) := by
    rw [h.live_eq]
    intro q hq
    rw [Finset.mem_coe, Multiset.mem_toFinset, Multiset.mem_map] at hq
    obtain ⟨x, hx, rfl⟩ := hq
    obtain ⟨a, ha, he⟩ := hl x hx
    rw [Finset.mem_coe, List.mem_toFinset, List.mem_map]
    exact ⟨a, ha, Quotient.sound (s := E.setoid) he⟩
  have hle := Set.ncard_le_ncard hsub (Finset.finite_toSet _)
  rw [Set.ncard_coe_finset] at hle
  exact hle.trans ((List.toFinset_card_le _).trans_eq (List.length_map _))

/-- There are not fewer keys than in a list of different ones. -/
theorem Represents.le_ncard_live (h : E.Represents s m) {l : List K}
    (hd : l.Pairwise fun a b ↦ E.eq a b = false) (hl : ∀ a ∈ l, (m a).isSome) :
    l.length ≤ (E.live m).ncard := by
  classical
  have hsub : ((l.map (Quotient.mk E.setoid)).toFinset : Set (Quotient E.setoid)) ⊆ E.live m := by
    intro q hq
    rw [Finset.mem_coe, List.mem_toFinset, List.mem_map] at hq
    obtain ⟨a, ha, rfl⟩ := hq
    exact ⟨a, hl a ha, rfl⟩
  have hnodup : (l.map (Quotient.mk E.setoid)).Nodup := by
    rw [List.Nodup, List.pairwise_map]
    refine hd.imp fun {a b} hne he ↦ ?_
    have := Quotient.exact he
    exact Bool.false_ne_true (hne.symm.trans this)
  have hle := Set.ncard_le_ncard hsub h.finite_live
  rwa [Set.ncard_coe_finset, List.toFinset_card_of_nodup hnodup, List.length_map] at hle

/-! ## Setting one key after the other -/

/-- The map `m` with all the entries of a list set. -/
def insertList (E : KeyEq K) (m : K → Option V) (l : List (K × V)) : K → Option V :=
  l.foldl (fun m x ↦ E.insert m x.1 x.2) m

/-- Setting the entries of a map gives the map again. -/
theorem Represents.insertList_eq {l : List (K × V)} (h : E.Represents (l : Multiset (K × V)) m) :
    E.insertList (fun _ ↦ none) l = m := by
  have hset (l : List (K × V)) : ∀ (s : Multiset (K × V)) (m₀ : K → Option V),
      E.Represents s m₀ → ((s + (l : Multiset (K × V))).map E.classOf).Nodup →
      E.Represents (s + (l : Multiset (K × V))) (E.insertList m₀ l) := by
    induction l with
    | nil =>
      intro s m₀ h₀ _
      exact (add_zero s).symm ▸ h₀
    | cons x l ih =>
      intro s m₀ h₀ hnodup
      have hcomm : s + ((x :: l : List (K × V)) : Multiset (K × V)) =
          (x ::ₘ s) + (l : Multiset (K × V)) := by
        rw [← Multiset.cons_coe, Multiset.add_cons, Multiset.cons_add]
      rw [hcomm] at hnodup ⊢
      have hx : m₀ x.1 = none := by
        rw [h₀.eq_none_iff]
        intro y hy
        rw [Multiset.cons_add, Multiset.map_cons, Multiset.nodup_cons] at hnodup
        rw [← Bool.not_eq_true]
        intro he
        refine hnodup.1 (Multiset.mem_map.2 ⟨y, Multiset.mem_add.2 (Or.inl hy), ?_⟩)
        exact E.classOf_eq_iff.2 he
      exact ih (x ::ₘ s) (E.insert m₀ x.1 x.2) (h₀.insert hx x.2) hnodup
  have hall := hset l 0 (fun _ ↦ none) .empty
  rw [zero_add] at hall
  exact (hall h.nodup).unique h

end KeyEq

end PxcCore.Lib
