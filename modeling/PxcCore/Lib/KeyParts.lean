import PxcCore.Lib.KeyMap

/-!
# Finite maps in parts

A map whose keys are sent to parts by a function `r` that does not tell equal keys apart.  Changing
a key changes its own part and no other, and the entries of all parts together make up the map.
-/

namespace PxcCore.Lib.KeyEq

variable {K V ι : Type*} {E : KeyEq K} [DecidableEq ι] {r : K → ι}

/-- The map on the keys of one part. -/
def part (r : K → ι) (m : K → Option V) (i : ι) : K → Option V :=
  fun k ↦ if r k = i then m k else none

@[simp] theorem part_self (r : K → ι) (m : K → Option V) (k : K) : part r m (r k) k = m k :=
  if_pos rfl

theorem part_none (r : K → ι) (i : ι) : part r (fun _ ↦ none : K → Option V) i = fun _ ↦ none := by
  funext k
  exact ite_self none

/-! ## Changing a key -/

/-- The map `m` with `k` set to a value, or without `k`. -/
def change (E : KeyEq K) (m : K → Option V) (k : K) (v : Option V) : K → Option V :=
  fun k' ↦ if E.eq k k' then v else m k'

theorem change_some (m : K → Option V) (k : K) (v : V) : E.change m k (some v) = E.insert m k v :=
  rfl

/-- The part of the key changes in the same way. -/
theorem part_change (hr : ∀ {a b}, E.eq a b = true → r a = r b) (m : K → Option V) (k : K)
    (v : Option V) : part r (E.change m k v) (r k) = E.change (part r m (r k)) k v := by
  funext a
  unfold part change
  by_cases he : E.eq k a = true
  · rw [if_pos (hr he).symm, if_pos he, if_pos he]
  · rw [if_neg he, if_neg he]

/-- The other parts do not change. -/
theorem part_change_of_ne (hr : ∀ {a b}, E.eq a b = true → r a = r b) (m : K → Option V) {k : K}
    (v : Option V) {i : ι} (hi : i ≠ r k) : part r (E.change m k v) i = part r m i := by
  funext a
  unfold part change
  split_ifs with ha he
  · exact absurd ((hr he).trans ha).symm hi
  · rfl
  · rfl

/-! ## All parts together -/

variable {m : K → Option V}

/-- The entries of the parts make up the map. -/
theorem Represents.of_parts [Fintype ι] (hr : ∀ {a b}, E.eq a b = true → r a = r b)
    {s : ι → Multiset (K × V)} (h : ∀ i, E.Represents (s i) (part r m i)) :
    E.Represents (Finset.univ.val.bind s) m where
  nodup := by
    rw [Multiset.map_bind, Multiset.nodup_bind]
    refine ⟨fun i _ ↦ (h i).nodup, ?_⟩
    refine Multiset.Nodup.pairwise ?_ Finset.univ.nodup
    intro i _ j _ hij
    rw [Function.onFun, Multiset.disjoint_left]
    intro q hi hj
    -- the part of an entry is the part of its key, so equal keys are in one part
    have hpart {i : ι} {x : K × V} (hx : x ∈ s i) : r x.1 = i := by
      by_contra hne
      have := (h i).of_mem hx (E.refl x.1)
      rw [part, if_neg hne] at this
      cases this
    obtain ⟨x, hx, rfl⟩ := Multiset.mem_map.1 hi
    obtain ⟨y, hy, he⟩ := Multiset.mem_map.1 hj
    rw [E.classOf_eq_iff] at he
    exact hij ((hpart hx).symm.trans ((hr he).symm.trans (hpart hy)))
  lookup k v := by
    have hk := (h (r k)).lookup k v
    rw [part_self] at hk
    rw [hk]
    constructor
    · rintro ⟨x, hx, he⟩
      exact ⟨x, Multiset.mem_bind.2 ⟨r k, Finset.mem_univ_val _, hx⟩, he⟩
    · rintro ⟨x, hx, he, hv⟩
      obtain ⟨i, -, hx⟩ := Multiset.mem_bind.1 hx
      have hi := (h i).of_mem hx he
      have : r k = i := by
        by_contra hne
        rw [part, if_neg hne] at hi
        cases hi
      exact ⟨x, this ▸ hx, he, hv⟩

end PxcCore.Lib.KeyEq
